import ChunkedSet.IntSet.Points

/-!
# Statistics of a set

Counts of entries, values and written bytes, by representation and in total.
-/

namespace ChunkedSet

structure KindTotals where
  entries : Nat
  values : Nat
  bytes : Nat
deriving DecidableEq

def KindTotals.add (t : KindTotals) (c : Chunk) : KindTotals :=
  ⟨t.entries + 1, t.values + c.size, t.bytes + c.bytes⟩

structure Statistics where
  entries : Nat
  arrays : KindTotals
  runs : KindTotals
  blocks : KindTotals
  max? : Option Nat
  min? : Option Nat
  size : Nat
deriving DecidableEq

def Statistics.add (t : Statistics) (e : Entry) : Statistics :=
  let t := { t with entries := t.entries + 1, size := t.size + e.size }
  match e.chunk with
  | .array _ => { t with arrays := t.arrays.add e.chunk }
  | .block _ => { t with blocks := t.blocks.add e.chunk }
  | .runs _ => { t with runs := t.runs.add e.chunk }

namespace IntSet

def statistics (s : IntSet) : Statistics :=
  s.entries.foldl Statistics.add
    ⟨0, ⟨0, 0, 0⟩, ⟨0, 0, 0⟩, ⟨0, 0, 0⟩, s.max?, s.min?, 0⟩

end IntSet

end ChunkedSet
