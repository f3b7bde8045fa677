import ChunkedSet.IntSet.Points

/-!
# Trimming, moving and changing representation

Whole chunks go first when values are dropped from one end; only the chunk at the cut is changed.
A shift by a multiple of the chunk size moves keys and keeps the chunks as they are.
-/

namespace ChunkedSet.IntSet

/-- Drops `n` values from the front of a list of entries, the last of them from a chunk that stays. -/
def dropIn (trim : Chunk → Nat → Chunk) : List Entry → Nat → List Entry
  | [], _ => []
  | e :: rest, n =>
    if e.size ≤ n then dropIn trim rest (n - e.size)
    else if 0 < n then ⟨e.key, trim e.chunk n⟩ :: rest
    else e :: rest

def dropSmallest (s : IntSet) (n : Nat) : IntSet :=
  ⟨(dropIn Chunk.dropSmallest s.entries.toList n).toArray⟩

def dropBiggest (s : IntSet) (n : Nat) : IntSet :=
  ⟨(dropIn Chunk.dropBiggest s.entries.toList.reverse n).reverse.toArray⟩

def limitIn : List Entry → Nat → Array Entry → Array Entry
  | [], _, out => out
  | e :: rest, n, out =>
    if n = 0 then out
    else
      let kept : Entry := if n < e.size then ⟨e.key, e.chunk.dropBiggest (e.size - n)⟩ else e
      limitIn rest (n - kept.size) (out.push kept)

def limit (s : IntSet) (n : Nat) : IntSet := ⟨limitIn s.entries.toList n #[]⟩

/-- Moves every value by `offset` and drops those that leave the domain. -/
def shiftValues (s : IntSet) (offset : Int) : IntSet :=
  s.entries.foldl (fun out e =>
    e.chunk.positions.foldl (fun out p =>
      let moved := (e.value p : Int) + offset
      if 0 ≤ moved ∧ moved < domainSize then out.append moved.toNat else out) out) empty

def shiftKeys (s : IntSet) (keys : Int) : IntSet :=
  ⟨s.entries.filterMap fun e =>
    let moved := (e.key : Int) + keys
    if 0 ≤ moved ∧ moved < chunkSize then some ⟨moved.toNat, e.chunk⟩ else none⟩

def addOffset (s : IntSet) (offset : Int) : IntSet :=
  if offset % 65536 = 0 then s.shiftKeys (offset / 65536) else s.shiftValues offset

def mapChunks (s : IntSet) (f : Chunk → Chunk × Bool) : IntSet × Bool :=
  let (entries, changed) := s.entries.foldl
    (fun (out, changed) e =>
      let (chunk, c) := f e.chunk
      (out.push ⟨e.key, chunk⟩, changed || c))
    (#[], false)
  (⟨entries⟩, changed)

def optimize (s : IntSet) : IntSet × Bool := s.mapChunks Chunk.optimize

def withoutRuns (s : IntSet) : IntSet × Bool := s.mapChunks Chunk.withoutRuns

end ChunkedSet.IntSet
