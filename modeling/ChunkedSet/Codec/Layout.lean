import ChunkedSet.IntSet.Points

/-!
# Layout of a written set

A header, then one payload per entry. The header has a cookie; the number of entries, packed
into the cookie if there are runs; then, if there are runs, one flag bit per entry; key and size
of every entry; and the offsets of the payloads, left out for few entries with runs among them.
-/

namespace ChunkedSet

def plainCookie : Nat := 12346

/-- The low half of the cookie of a set with runs. -/
def runCookie : Nat := 12347

/-- Sets with runs have offsets from this number of entries on. -/
def offsetThreshold : Nat := 4

/-- More runs than this do not fit into one chunk. -/
def maxRuns : Nat := 32768

structure Header where
  count : Nat
  hasRuns : Bool
deriving DecidableEq

namespace Header

def ofSet (s : IntSet) : Header := ⟨s.entries.size, s.entries.any (·.chunk.isRuns)⟩

def hasOffsets (h : Header) : Bool := !h.hasRuns || decide (offsetThreshold ≤ h.count)

def flagBytes (h : Header) : Nat := if h.hasRuns then (h.count + 7) / 8 else 0

def bytes (h : Header) : Nat :=
  4 + (if h.hasRuns then 0 else 4) + h.flagBytes + 4 * h.count +
    if h.hasOffsets then 4 * h.count else 0

end Header

def IntSet.bytes (s : IntSet) : Nat :=
  (Header.ofSet s).bytes + s.entries.foldl (fun n e => n + e.chunk.bytes) 0

end ChunkedSet
