import ChunkedSet.Bounds
import ChunkedSet.IntSet.Points

/-!
# Ranges of values

A change of a range rebuilds the entries of all its keys, one key after the other; a question
about a range asks the entries that lie in it.
-/

namespace ChunkedSet

def Entry.takeKey (key : Nat) : List Entry → Option Chunk × List Entry
  | e :: rest => if e.key = key then (some e.chunk, rest) else (none, e :: rest)
  | [] => (none, [])

def Entry.pushNonempty (out : Array Entry) (e : Entry) : Array Entry :=
  if e.isEmpty then out else out.push e

namespace IntSet

/-- Rebuilds the chunk of each key from the old one, adding up the counts. -/
def rebuildFrom (f : Nat → Option Chunk → Chunk × Nat) :
    List Nat → List Entry → Array Entry → Nat → Array Entry × Nat
  | [], _, out, count => (out, count)
  | key :: keys, old, out, count =>
    let (chunk?, old) := Entry.takeKey key old
    let (chunk, k) := f key chunk?
    rebuildFrom f keys old (Entry.pushNonempty out ⟨key, chunk⟩) (count + k)

def rebuild (s : IntSet) (span : Span) (f : Nat → Option Chunk → Chunk × Nat) : IntSet × Nat :=
  let start := s.below span.firstKey
  let stop := s.upTo span.lastKey
  let (out, count) :=
    rebuildFrom f span.keys (s.entries.extract start stop).toList (s.entries.extract 0 start) 0
  (⟨out ++ s.entries.extract stop s.entries.size⟩, count)

def insertSpan (s : IntSet) (span : Span) : IntSet × Nat :=
  s.rebuild span fun key chunk? =>
    let lo := span.firstIn key
    let hi := span.lastIn key
    match chunk? with
    | some c => c.insertRange lo hi
    | none => (.ofRange lo hi, hi - lo + 1)

def flipSpan (s : IntSet) (span : Span) : IntSet :=
  (s.rebuild span fun key chunk? =>
    let lo := span.firstIn key
    let hi := span.lastIn key
    match chunk? with
    | some c => ((c.flipRange lo hi).settle, 0)
    | none => (.ofRange lo hi, 0)).1

def overlapping (s : IntSet) (span : Span) : Array Entry :=
  s.entries.extract (s.below span.firstKey) (s.upTo span.lastKey)

def eraseSpan (s : IntSet) (span : Span) : IntSet × Nat :=
  let start := s.below span.firstKey
  let stop := s.upTo span.lastKey
  let (out, removed) := (s.entries.extract start stop).foldl
    (fun (out, n) e =>
      let (chunk, k) := e.chunk.eraseRange (span.firstIn e.key) (span.lastIn e.key)
      (out.push ⟨e.key, chunk⟩, n + k))
    (s.entries.extract 0 start, 0)
  let entries := out ++ s.entries.extract stop s.entries.size
  (⟨if 0 < removed then entries.filter fun e => !e.isEmpty else entries⟩, removed)

/-- A change of a range: nothing happens if it is reversed or empty. -/
def changeRange {β : Type} (s : IntSet) (range : Bounds) (unchanged : β)
    (f : IntSet → Span → IntSet × β) : IntSet × Except RangeError β :=
  match range.checked with
  | .error e => (s, .error e)
  | .ok none => (s, .ok unchanged)
  | .ok (some span) =>
    let (s, report) := f s span
    (s, .ok report)

def insertRange (s : IntSet) (range : Bounds) : IntSet × Except RangeError Nat :=
  s.changeRange range 0 insertSpan

def eraseRange (s : IntSet) (range : Bounds) : IntSet × Except RangeError Nat :=
  s.changeRange range 0 eraseSpan

def flip (s : IntSet) (range : Bounds) : IntSet × Except RangeError Unit :=
  s.changeRange range () fun s span => (s.flipSpan span, ())

def flipped (s : IntSet) (range : Bounds) : Except RangeError IntSet :=
  match s.flip range with
  | (s, .ok ()) => .ok s
  | (_, .error e) => .error e

def containsRange (s : IntSet) (range : Bounds) : Bool :=
  match range.span? with
  | none => true
  | some span =>
    let met := s.overlapping span
    met.size == span.lastKey - span.firstKey + 1 &&
      met.all fun e => e.chunk.containsRange (span.firstIn e.key) (span.lastIn e.key)

def rangeSize (s : IntSet) (range : Bounds) : Nat :=
  match range.span? with
  | none => 0
  | some span =>
    (s.overlapping span).foldl
      (fun n e => n + e.chunk.rangeSize (span.firstIn e.key) (span.lastIn e.key)) 0

end IntSet

end ChunkedSet
