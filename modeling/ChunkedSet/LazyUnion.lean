import ChunkedSet.IntSet.Algebra

/-!
# Lazy unions

An accumulator for the union of many sets. A chunk that only one set contributed is kept as it
is; one that several contributed is a plain block of words, whose bits are counted only when the
union is repaired. The size is known as long as no key came twice.
-/

namespace ChunkedSet

inductive LazyChunk
  /-- The chunk of the only set that contributed. -/
  | exact (chunk : Chunk)
  /-- The bits of several sets, not counted. -/
  | words (ws : Words)

structure LazyEntry where
  key : Nat
  chunk : LazyChunk

structure LazyUnion where
  entries : Array LazyEntry
  size? : Option Nat

def Words.orChunk (ws : Words) : Chunk → Words
  | .array a => a.values.foldl Words.insert ws
  | .block b => Vector.zipWith (· ||| ·) ws b.words
  | .runs l => l.runs.foldl (fun ws r => ws.insertRange r.first r.last) ws

namespace LazyChunk

def blank : LazyChunk := exact .empty

def orChunk (c : LazyChunk) (d : Chunk) : LazyChunk :=
  match c with
  | exact c => words (c.toBits.words.orChunk d)
  | words ws => words (ws.orChunk d)

def repair : LazyChunk → Chunk
  | exact c => c
  | words ws => (Chunk.block (.ofWords ws)).settle

end LazyChunk

namespace LazyUnion

def empty : LazyUnion := ⟨#[], some 0⟩

def ofSet (s : IntSet) : LazyUnion := ⟨s.entries.map fun e => ⟨e.key, .exact e.chunk⟩, some s.size⟩

def isEmpty (u : LazyUnion) : Bool := u.entries.isEmpty

def below (u : LazyUnion) (key : Nat) : Nat := partitionPoint (·.key < key) u.entries

def addEntry (u : LazyUnion) (e : Entry) : LazyUnion :=
  let place := u.below e.key
  match u.entries[place]?.map LazyEntry.key with
  | some key =>
    if key = e.key then
      ⟨(updateAt u.entries place ⟨0, .blank⟩ () fun x =>
        (⟨x.key, x.chunk.orChunk e.chunk⟩, ())).1, none⟩
    else ⟨u.entries.insertIdxIfInBounds place ⟨e.key, .exact e.chunk⟩, u.size?.map (· + e.size)⟩
  | none => ⟨u.entries.push ⟨e.key, .exact e.chunk⟩, u.size?.map (· + e.size)⟩

def add (u : LazyUnion) (s : IntSet) : LazyUnion := s.entries.foldl addEntry u

def addAll (u : LazyUnion) (sets : List IntSet) : LazyUnion := sets.foldl add u

def repair (u : LazyUnion) : IntSet :=
  ⟨u.entries.foldl (fun out e => Entry.pushNonempty out ⟨e.key, e.chunk.repair⟩) #[]⟩

end LazyUnion

end ChunkedSet
