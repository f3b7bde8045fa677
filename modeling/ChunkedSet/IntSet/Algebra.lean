import ChunkedSet.IntSet.Order

/-!
# Set operations on sets

Two sets are merged by key. `combine` offers each operation in six spellings, which differ in the
operands whose storage the result may take over.
-/

namespace ChunkedSet

inductive Pairing
  | left (e : Entry)
  | right (e : Entry)
  | both (e f : Entry)

def Pairing.fold {β : Type} (f : β → Pairing → β) (xs ys : List Entry) (out : β) : β :=
  match xs, ys with
  | [], ys => ys.foldl (fun out y => f out (.right y)) out
  | xs, [] => xs.foldl (fun out x => f out (.left x)) out
  | x :: xs, y :: ys =>
    if x.key < y.key then fold f xs (y :: ys) (f out (.left x))
    else if y.key < x.key then fold f (x :: xs) ys (f out (.right y))
    else fold f xs ys (f out (.both x y))
termination_by xs.length + ys.length

inductive Operation
  | union
  | intersection
  | difference
  | symmetricDifference
deriving DecidableEq

inductive Handover
  /-- Both are kept. -/
  | neither
  /-- The right one is given up. -/
  | right
  /-- The left one is given up. -/
  | left
  | both
  /-- The left one is changed in place. -/
  | inPlace
  /-- The left one is changed in place and the right one given up. -/
  | inPlaceTaking
deriving DecidableEq

namespace Operation

def keepsLeft : Operation → Bool
  | intersection => false
  | _ => true

def keepsRight : Operation → Bool
  | union => true
  | symmetricDifference => true
  | _ => false

def onChunks : Operation → Chunk → Chunk → Chunk
  | union => Chunk.union
  | intersection => Chunk.intersection
  | difference => Chunk.difference
  | symmetricDifference => Chunk.symmetricDifference

def ontoLeft : Operation → Chunk → Chunk → Chunk
  | union => Chunk.unionOnto
  | intersection => Chunk.intersectionOnto
  | difference => Chunk.differenceOnto
  | symmetricDifference => Chunk.symmetricDifferenceOnto

def taking : Operation → Chunk → Chunk → Chunk
  | union => Chunk.unionTaking
  | intersection => Chunk.intersectionTaking
  | difference => Chunk.differenceOnto
  | symmetricDifference => Chunk.symmetricDifferenceTaking

end Operation

namespace IntSet

def mergeBy (op : Operation) (f : Chunk → Chunk → Chunk) (s t : IntSet) : IntSet :=
  let step (out : Array Entry) (pair : Pairing) : Array Entry :=
    match pair with
    | .left e => if op.keepsLeft then Entry.pushNonempty out e else out
    | .right e => if op.keepsRight then Entry.pushNonempty out e else out
    | .both e e' => Entry.pushNonempty out ⟨e.key, (f e.chunk e'.chunk).settle⟩
  ⟨Pairing.fold step s.entries.toList t.entries.toList #[]⟩

def apply (op : Operation) (s t : IntSet) : IntSet := mergeBy op op.onChunks s t

def applyOnto (op : Operation) (s t : IntSet) : IntSet := mergeBy op op.ontoLeft s t

/-- The operation with both operands given up. A union goes into the set with more entries. -/
def applyTaking (op : Operation) (s t : IntSet) : IntSet :=
  if op = .union ∧ s.entries.size < t.entries.size then mergeBy op op.taking t s
  else mergeBy op op.taking s t

def combine (op : Operation) (handover : Handover) (s t : IntSet) : IntSet :=
  match handover with
  | .neither => apply op s t
  | .right => if op = .difference then apply op s t else applyOnto op t s
  | .left => applyOnto op s t
  | .both => applyTaking op s t
  | .inPlace => applyOnto op s t
  | .inPlaceTaking => applyTaking op s t

def union (s t : IntSet) : IntSet := apply .union s t

def intersection (s t : IntSet) : IntSet := apply .intersection s t

def difference (s t : IntSet) : IntSet := apply .difference s t

def symmetricDifference (s t : IntSet) : IntSet := apply .symmetricDifference s t

def intersectionSize (s t : IntSet) : Nat :=
  Pairing.fold
    (fun n pair =>
      match pair with
      | .both e e' => n + e.chunk.intersectionSize e'.chunk
      | _ => n)
    s.entries.toList t.entries.toList 0

def unionSize (s t : IntSet) : Nat := s.size + t.size - s.intersectionSize t

def differenceSize (s t : IntSet) : Nat := s.size - s.intersectionSize t

def symmetricDifferenceSize (s t : IntSet) : Nat := s.size + t.size - 2 * s.intersectionSize t

def orNotChunk (last : Nat) : Option Chunk → Option Chunk → Chunk
  | some own, some excluded => (own.orNot excluded last).settle
  | some own, none => (own.insertRange 0 last).1
  | none, some excluded => ((Chunk.ofRange 0 last).differenceOnto excluded).settle
  | none, none => .ofRange 0 last

/-- Goes through the keys of the window, and ends with the entries behind it. -/
def orNotFrom (span : Span) : List Nat → List Entry → List Entry → Array Entry → Array Entry
  | [], own, _, out => out ++ own.toArray
  | key :: keys, own, excluded, out =>
    let (mine, own) := Entry.takeKey key own
    let (theirs, excluded) := Entry.takeKey key excluded
    orNotFrom span keys own excluded
      (Entry.pushNonempty out ⟨key, orNotChunk (span.lastIn key) mine theirs⟩)

def orNot (s t : IntSet) (bound : Nat) : Except RangeError IntSet :=
  match lastBelow bound with
  | .error e => .error e
  | .ok none => .ok s
  | .ok (some last) =>
    let span : Span := ⟨0, last⟩
    .ok ⟨orNotFrom span span.keys s.entries.toList t.entries.toList #[]⟩

/-- Corrects a count in which all values of the window were taken for members. -/
def orNotCount (span : Span) (count : Nat) (pair : Pairing) : Nat :=
  let key := match pair with
    | .left e => e.key
    | .right e => e.key
    | .both e _ => e.key
  if span.lastKey < key then
    match pair with
    | .left e => count + e.size
    | .both e _ => count + e.size
    | .right _ => count
  else
    let last := span.lastIn key
    let window := last + 1
    count - window +
      match pair with
      | .left e => e.size + window - e.chunk.rank last
      | .right e => window - e.chunk.rank last
      | .both e e' => e.chunk.orNotSize e'.chunk last

def orNotSize (s t : IntSet) (bound : Nat) : Except RangeError Nat :=
  match lastBelow bound with
  | .error e => .error e
  | .ok none => .ok s.size
  | .ok (some last) =>
    .ok (Pairing.fold (orNotCount ⟨0, last⟩) s.entries.toList t.entries.toList (last + 1))

end IntSet

end ChunkedSet
