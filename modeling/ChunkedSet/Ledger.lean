/-!
# Ledger of buffers

Buffers are handed out and taken back by address. Word blocks and vectors are booked apart. A
vector without room takes no memory: all such vectors of one alignment share an address. A buffer
that comes back and was never handed out changes nothing.
-/

namespace ChunkedSet

inductive Address
  /-- Shared by the vectors without room of elements of that alignment. -/
  | vacant (alignment : Nat)
  | placed (id : Nat)
deriving DecidableEq

inductive BufferKind
  | vector
  | words
deriving DecidableEq

structure Buffer where
  kind : BufferKind
  address : Address
deriving DecidableEq

inductive Request
  | vector (alignment capacity : Nat)
  | words
deriving DecidableEq

/-- The addresses handed out and not yet taken back; `fresh` was never used. -/
structure Ledger where
  vectors : List Address
  words : List Address
  fresh : Nat
deriving DecidableEq

namespace Ledger

def empty : Ledger := ⟨[], [], 0⟩

def liveVectors (l : Ledger) : Nat := l.vectors.length

def liveWords (l : Ledger) : Nat := l.words.length

def live (l : Ledger) : Nat := l.liveVectors + l.liveWords

def place (l : Ledger) : Request → Buffer × Ledger
  | .vector alignment 0 => (⟨.vector, .vacant alignment⟩, l)
  | .vector _ (_ + 1) => (⟨.vector, .placed l.fresh⟩, { l with fresh := l.fresh + 1 })
  | .words => (⟨.words, .placed l.fresh⟩, { l with fresh := l.fresh + 1 })

def book (l : Ledger) (b : Buffer) : Ledger :=
  match b.kind with
  | .vector => { l with vectors := b.address :: l.vectors }
  | .words => { l with words := b.address :: l.words }

def allocate (l : Ledger) (r : Request) : Buffer × Ledger :=
  let (b, l) := l.place r
  (b, l.book b)

def release (l : Ledger) (b : Buffer) : Ledger :=
  match b.kind with
  | .vector => { l with vectors := l.vectors.erase b.address }
  | .words => { l with words := l.words.erase b.address }

def releaseAll (l : Ledger) (bs : List Buffer) : Ledger := bs.foldl release l

/-- Takes back a buffer that came from elsewhere. -/
def releaseForeign (l : Ledger) (r : Request) : Ledger :=
  let (b, l) := l.place r
  l.release b

end Ledger

end ChunkedSet
