import ChunkedSet.IntSet.Basic

/-!
# Single values

Membership, insertion and removal of one value, and sequences of such steps. Appending takes
values that exceed all before them and stops at the first one that does not.
-/

namespace ChunkedSet

/-- The element that breaks the order comes after this many good ones. -/
structure UnsortedError where
  validUntil : Nat
deriving DecidableEq

def UnsortedError.message (e : UnsortedError) : String :=
  "integers are ordered up to the " ++ toString e.validUntil ++ "th element"

namespace Entry

def blank : Entry := ⟨0, .empty⟩

def single (key p : Nat) : Entry := ⟨key, .ofRange p p⟩

def update {β : Type} (f : Chunk → Chunk × β) (e : Entry) : Entry × β :=
  match e with
  | ⟨key, chunk⟩ =>
    let (chunk, report) := f chunk
    (⟨key, chunk⟩, report)

end Entry

namespace IntSet

def contains (s : IntSet) (v : Nat) : Bool :=
  match s.find? (keyOf v) with
  | some c => c.contains (positionOf v)
  | none => false

/-- The set with an entry for the key, an empty one if there was none, and the index of it. -/
def withKey (s : IntSet) (key : Nat) : IntSet × Nat :=
  match s.index? key with
  | some place => (s, place)
  | none => (⟨s.entries.insertIdxIfInBounds (s.below key) ⟨key, .empty⟩⟩, s.below key)

def insertAt (s : IntSet) (place p : Nat) : IntSet × Bool :=
  let (entries, added) := updateAt s.entries place .blank false (Entry.update (·.insert p))
  (⟨entries⟩, added)

def insert (s : IntSet) (v : Nat) : IntSet × Bool :=
  let (s, place) := s.withKey (keyOf v)
  s.insertAt place (positionOf v)

def erase (s : IntSet) (v : Nat) : IntSet × Bool :=
  match s.index? (keyOf v) with
  | some place =>
    let (entries, removed, emptied) :=
      updateAt s.entries place .blank (false, false) <| Entry.update fun c =>
        let (c, removed) := c.erase (positionOf v)
        (c, removed, c.isEmpty)
    (⟨if emptied then entries.eraseIdxIfInBounds place else entries⟩, removed)
  | none => (s, false)

def push (s : IntSet) (v : Nat) : IntSet × Bool :=
  match s.entries.back? with
  | some last =>
    if keyOf v < last.key then (s, false)
    else if last.key = keyOf v then
      let (entries, pushed) :=
        updateAt s.entries (s.entries.size - 1) .blank false (Entry.update (·.push (positionOf v)))
      (⟨entries⟩, pushed)
    else (⟨s.entries.push (.single (keyOf v) (positionOf v))⟩, true)
  | none => (⟨s.entries.push (.single (keyOf v) (positionOf v))⟩, true)

/-- Adds a value that exceeds all values of the set. -/
def append (s : IntSet) (v : Nat) : IntSet :=
  let last := s.entries.size - 1
  if s.entries.back?.map Entry.key = some (keyOf v) then
    ⟨(updateAt s.entries last .blank () (Entry.update fun c => (c.append (positionOf v), ()))).1⟩
  else ⟨s.entries.push (.single (keyOf v) (positionOf v))⟩

def max? (s : IntSet) : Option Nat :=
  s.entries.back?.bind fun e => e.chunk.max?.map e.value

def min? (s : IntSet) : Option Nat :=
  s.entries[0]?.bind fun e => e.chunk.min?.map e.value

/-- As `withKey`, for the index at hand if it is that of the key. -/
def withKeyFrom (s : IntSet) (current : Option (Nat × Nat)) (key : Nat) : IntSet × Nat :=
  match current.filter (·.1 = key) with
  | some (_, place) => (s, place)
  | none => s.withKey key

/-- Inserts values; `current` is the key of the one before and the index of its entry. -/
def insertAllFrom : List Nat → Option (Nat × Nat) → IntSet → IntSet
  | [], _, s => s
  | v :: rest, current, s =>
    let (s, place) := s.withKeyFrom current (keyOf v)
    insertAllFrom rest (some (keyOf v, place)) (s.insertAt place (positionOf v)).1

def insertAll (s : IntSet) (values : List Nat) : IntSet := insertAllFrom values none s

def ofList (values : List Nat) : IntSet := empty.insertAll values

def appendFrom : List Nat → Option Nat → Nat → IntSet → IntSet × Except UnsortedError Nat
  | [], _, count, s => (s, .ok count)
  | v :: rest, last, count, s =>
    if last.any (v ≤ ·) then (s, .error ⟨count⟩)
    else appendFrom rest (some v) (count + 1) (s.append v)

def appendAll (s : IntSet) (values : List Nat) : IntSet × Except UnsortedError Nat :=
  appendFrom values s.max? 0 s

def ofSortedList (values : List Nat) : Except UnsortedError IntSet :=
  match empty.appendAll values with
  | (s, .ok _) => .ok s
  | (_, .error e) => .error e

end IntSet

end ChunkedSet
