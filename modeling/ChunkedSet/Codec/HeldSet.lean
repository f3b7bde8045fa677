import ChunkedSet.IntSet.Points
import ChunkedSet.Ledger

/-!
# Sets backed by a ledger

A set together with the buffers that hold it. When a value is removed, a chunk that is emptied
or changes its representation drops its buffer without telling the ledger, which goes on to
count it.
-/

namespace ChunkedSet

/-- A set and the buffers that back it: one for the entries and one for each chunk. -/
structure HeldSet where
  set : IntSet
  frame : Buffer
  buffers : Array Buffer

namespace HeldSet

def release (h : HeldSet) (l : Ledger) : Ledger :=
  (l.releaseAll h.buffers.toList).release h.frame

def sameKind : Chunk → Chunk → Bool
  | .array _, .array _ => true
  | .block _, .block _ => true
  | .runs _, .runs _ => true
  | _, _ => false

def request : Chunk → Request
  | .array a => .vector 2 a.size
  | .block _ => .words
  | .runs l => .vector 2 l.runCount

/-- Removes a value, and keeps the buffers in step with the entries. -/
def erase (h : HeldSet) (v : Nat) (l : Ledger) : HeldSet × Ledger :=
  match h.set.index? (keyOf v) with
  | none => (h, l)
  | some place =>
    let set := (h.set.erase v).1
    match h.set.entries[place]?, set.find? (keyOf v) with
    | some e, some c =>
      if sameKind e.chunk c then ({ h with set }, l)
      else
        let (buffer, l) := l.place (request c)
        ({ h with set, buffers := h.buffers.setIfInBounds place buffer }, l)
    | _, _ => ({ h with set, buffers := h.buffers.eraseIdxIfInBounds place }, l)

def eraseAll (h : HeldSet) (values : List Nat) (l : Ledger) : HeldSet × Ledger :=
  values.foldl (fun (h, l) v => h.erase v l) (h, l)

end HeldSet

end ChunkedSet
