import ChunkedSet.Chunk.Update
import ChunkedSet.Chunk.Compare

/-!
# Sets of 32-bit integers

A set is an array of entries, each a key with its chunk. In a set that is in order the keys
increase strictly and no chunk is empty. `find?` looks a chunk up, and `updateAt` changes one
element of an array in place.
-/

namespace ChunkedSet

structure Entry where
  key : Nat
  chunk : Chunk
deriving DecidableEq

namespace Entry

def size (e : Entry) : Nat := e.chunk.size

def isEmpty (e : Entry) : Bool := e.chunk.isEmpty

def value (e : Entry) (p : Nat) : Nat := valueAt e.key p

def toList (e : Entry) : List Nat := e.chunk.toList.map e.value

end Entry

structure IntSet where
  entries : Array Entry
deriving DecidableEq

namespace IntSet

def empty : IntSet := ⟨#[]⟩

def full : IntSet := ⟨(Array.range chunkSize).map fun key => ⟨key, .full⟩⟩

def toList (s : IntSet) : List Nat := s.entries.toList.flatMap Entry.toList

def isEmpty (s : IntSet) : Bool := s.entries.isEmpty

def size (s : IntSet) : Nat := s.entries.foldl (fun n e => n + e.size) 0

def isFull (s : IntSet) : Bool :=
  s.entries.size == chunkSize && s.entries.all fun e => e.chunk.isFull

def below (s : IntSet) (key : Nat) : Nat := partitionPoint (·.key < key) s.entries

def upTo (s : IntSet) (key : Nat) : Nat := partitionPoint (·.key ≤ key) s.entries

def index? (s : IntSet) (key : Nat) : Option Nat :=
  let place := s.below key
  match s.entries[place]? with
  | some e => if e.key = key then some place else none
  | none => none

def find? (s : IntSet) (key : Nat) : Option Chunk :=
  (s.index? key).bind fun place => s.entries[place]?.map Entry.chunk

end IntSet

/-- Changes element `i` in place and returns what the change reports, or `missing` if there is
no such element; `blank` stands in for the element meanwhile. -/
def updateAt {α β : Type} (xs : Array α) (i : Nat) (blank : α) (missing : β) (f : α → α × β) :
    Array α × β :=
  if h : i < xs.size then
    let (x, rest) := xs.swapAt i blank h
    let (x, report) := f x
    (rest.setIfInBounds i x, report)
  else (xs, missing)

end ChunkedSet
