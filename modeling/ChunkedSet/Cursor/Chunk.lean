import ChunkedSet.Chunk.Basic
import ChunkedSet.Cursor.Runs

/-!
# Cursors over one chunk

A cursor holds what is left of a chunk between a front and a back, both of which only move
inwards.
-/

namespace ChunkedSet

/-- What is left of an array: the indices from `front` up to, not including, `back`. -/
structure ArrayCursor where
  values : Array Nat
  front : Nat
  back : Nat

structure BlockCursor where
  words : Words
  front : Nat
  back : Nat

namespace ArrayCursor

def ofSorted (a : SortedArray) : ArrayCursor := ⟨a.values, 0, a.values.size⟩

def size (c : ArrayCursor) : Nat := c.back - c.front

def peek? (c : ArrayCursor) : Option Nat := if c.front < c.back then c.values[c.front]? else none

def peekBack? (c : ArrayCursor) : Option Nat :=
  if c.front < c.back then c.values[c.back - 1]? else none

def next (c : ArrayCursor) : Option Nat × ArrayCursor :=
  if c.front < c.back then (c.values[c.front]?, { c with front := c.front + 1 }) else (none, c)

def nextBack (c : ArrayCursor) : Option Nat × ArrayCursor :=
  if c.front < c.back then (c.values[c.back - 1]?, { c with back := c.back - 1 }) else (none, c)

def nth (c : ArrayCursor) (n : Nat) : Option Nat × ArrayCursor :=
  if c.front + n < c.back then { c with front := c.front + n }.next
  else (none, { c with front := c.back })

def advanceTo (c : ArrayCursor) (p : Nat) : ArrayCursor :=
  { c with front := partitionPointIn (· < p) c.values c.front c.back }

def advanceBackTo (c : ArrayCursor) (p : Nat) : ArrayCursor :=
  { c with back := partitionPointIn (· ≤ p) c.values c.front c.back }

end ArrayCursor

namespace BlockCursor

def ofBlock (b : Block) : BlockCursor := ⟨b.words, 0, chunkSize⟩

def size (c : BlockCursor) : Nat :=
  if c.back ≤ c.front then 0 else c.words.rangeSize c.front (c.back - 1)

def peek? (c : BlockCursor) : Option Nat := c.words.firstBetween c.front c.back

def peekBack? (c : BlockCursor) : Option Nat := c.words.lastBetween c.front c.back

def next (c : BlockCursor) : Option Nat × BlockCursor :=
  match c.peek? with
  | some found => (some found, { c with front := found + 1 })
  | none => (none, { c with front := c.back })

def nextBack (c : BlockCursor) : Option Nat × BlockCursor :=
  match c.peekBack? with
  | some found => (some found, { c with back := found })
  | none => (none, { c with back := c.front })

def advanceTo (c : BlockCursor) (p : Nat) : BlockCursor := { c with front := max c.front p }

def advanceBackTo (c : BlockCursor) (p : Nat) : BlockCursor := { c with back := min c.back (p + 1) }

end BlockCursor

inductive ChunkCursor
  | array (c : ArrayCursor)
  | block (c : BlockCursor)
  | runs (c : RunCursor)

namespace ChunkCursor

def ofChunk : Chunk → ChunkCursor
  | .array a => array (.ofSorted a)
  | .block b => block (.ofBlock b)
  | .runs l => runs (.ofList l)

def size : ChunkCursor → Nat
  | array c => c.size
  | block c => c.size
  | runs c => c.size

def peek? : ChunkCursor → Option Nat
  | array c => c.peek?
  | block c => c.peek?
  | runs c => c.peek?

def peekBack? : ChunkCursor → Option Nat
  | array c => c.peekBack?
  | block c => c.peekBack?
  | runs c => c.peekBack?

def next : ChunkCursor → Option Nat × ChunkCursor
  | array c => let (p, c) := c.next; (p, array c)
  | block c => let (p, c) := c.next; (p, block c)
  | runs c => let (p, c) := c.next; (p, runs c)

def nextBack : ChunkCursor → Option Nat × ChunkCursor
  | array c => let (p, c) := c.nextBack; (p, array c)
  | block c => let (p, c) := c.nextBack; (p, block c)
  | runs c => let (p, c) := c.nextBack; (p, runs c)

def nthByNext (step : ChunkCursor → Option Nat × ChunkCursor) :
    Nat → ChunkCursor → Option Nat × ChunkCursor
  | 0, c => step c
  | n + 1, c =>
    match step c with
    | (some _, c) => nthByNext step n c
    | (none, c) => (none, c)

def nth (c : ChunkCursor) (n : Nat) : Option Nat × ChunkCursor :=
  match c with
  | array c => let (p, c) := c.nth n; (p, array c)
  | c => nthByNext next n c

def nthBack (c : ChunkCursor) (n : Nat) : Option Nat × ChunkCursor := nthByNext nextBack n c

def advanceTo (c : ChunkCursor) (p : Nat) : ChunkCursor :=
  match c with
  | array c => array (c.advanceTo p)
  | block c => block (c.advanceTo p)
  | runs c => runs (c.advanceTo p)

def advanceBackTo (c : ChunkCursor) (p : Nat) : ChunkCursor :=
  match c with
  | array c => array (c.advanceBackTo p)
  | block c => block (c.advanceBackTo p)
  | runs c => runs (c.advanceBackTo p)

def takeBits : Nat → BlockCursor → Array Nat → Array Nat × BlockCursor
  | 0, c, out => (out, c)
  | room + 1, c, out =>
    match c.next with
    | (some p, c) => takeBits room c (out.push p)
    | (none, c) => (out, c)

/-- Takes stretches of runs until `room` positions are taken. A stretch holds a position at
least, so a chunk has fewer of them than the fuel allows. Where the end of a stretch wraps around,
the front moves back, and a room that is a multiple of 2^32 leaves it in place until no fuel is
left. -/
def takeStretches : Nat → Nat → RunCursor → Array Nat → Array Nat × RunCursor
  | 0, _, c, out => (out, c)
  | fuel + 1, room, c, out =>
    match c.nextChunk room with
    | (some r, c) =>
      let size := r.last + 1 - r.first
      takeStretches fuel (room - size) c (out ++ Array.range' r.first size)
    | (none, c) => (out, c)

def take (c : ChunkCursor) (room : Nat) : Array Nat × ChunkCursor :=
  match c with
  | array c =>
    let n := min c.size room
    (c.values.extract c.front (c.front + n), array { c with front := c.front + n })
  | block c => let (out, c) := takeBits room c #[]; (out, block c)
  | runs c => let (out, c) := takeStretches (2 * chunkSize) room c #[]; (out, runs c)

/-- Folds over the positions that a step takes one by one, until none is left. -/
def foldBy {β : Type} (step : ChunkCursor → Option Nat × ChunkCursor) (f : β → Nat → β) :
    Nat → ChunkCursor → β → β
  | 0, _, acc => acc
  | fuel + 1, c, acc =>
    match step c with
    | (some p, c) => foldBy step f fuel c (f acc p)
    | (none, _) => acc

def fold {β : Type} (f : β → Nat → β) (acc : β) (c : ChunkCursor) : β := foldBy next f chunkSize c acc

def foldBack {β : Type} (f : β → Nat → β) (acc : β) (c : ChunkCursor) : β :=
  foldBy nextBack f chunkSize c acc

end ChunkCursor

end ChunkedSet
