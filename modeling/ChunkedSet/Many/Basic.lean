import ChunkedSet.LazyUnion

/-!
# Operations on many sets

Each operation reads a list of inputs, any of which may be a failure, and ends with the first
failure it reads. An intersection begins with the inputs of fewest entries among the first
sixteen; intersections and differences stop reading once their result is empty.
-/

namespace ChunkedSet

inductive Ownership
  | kept
  | given
deriving DecidableEq

namespace Many

variable {ε : Type}

def handover : Ownership → Handover
  | .kept => .inPlace
  | .given => .inPlaceTaking

def unionFrom : List (Except ε IntSet) → LazyUnion → Except ε LazyUnion
  | [], u => .ok u
  | .ok s :: rest, u => unionFrom rest (u.add s)
  | .error e :: _, _ => .error e

def union (inputs : List (Except ε IntSet)) : Except ε IntSet :=
  (unionFrom inputs .empty).map LazyUnion.repair

def foldWhileNonempty (op : Operation) (o : Ownership) :
    List (Except ε IntSet) → IntSet → Except ε IntSet
  | [], s => .ok s
  | input :: rest, s =>
    if s.isEmpty then .ok s
    else
      match input with
      | .ok t => foldWhileNonempty op o rest (s.combine op (handover o) t)
      | .error e => .error e

/-- The number of inputs that an intersection reads before anything else. -/
def headSize : Nat := 16

def collect : List (Except ε IntSet) → Array IntSet → Except ε (List IntSet)
  | [], out => .ok out.toList
  | .ok s :: rest, out => collect rest (out.push s)
  | .error e :: _, _ => .error e

/-- By number of entries. A sort that is not stable may leave equal numbers in any order; here they
keep theirs, which is one of those allowed. No order of the inputs changes the values of an
intersection. -/
def byEntries (sets : List IntSet) : List IntSet :=
  sets.mergeSort fun s t => decide (s.entries.size ≤ t.entries.size)

def intersection (o : Ownership) (inputs : List (Except ε IntSet)) : Except ε IntSet :=
  match collect (inputs.take headSize) #[] with
  | .error e => .error e
  | .ok head =>
    match byEntries head with
    | [] => .ok .empty
    | first :: others =>
      foldWhileNonempty .intersection o (others.map .ok ++ inputs.drop headSize) first

def difference (o : Ownership) : List (Except ε IntSet) → Except ε IntSet
  | [] => .ok .empty
  | .ok first :: rest => foldWhileNonempty .difference o rest first
  | .error e :: _ => .error e

/-- Arrays are widened to blocks before values are toggled in them. -/
def accumulator : Chunk → Chunk
  | .array a => .block (.ofSorted a)
  | c => c

def toggle (c d : Chunk) : Chunk :=
  if d.isBlock && !c.isBlock then (accumulator d).symmetricDifferenceOnto c
  else (accumulator c).symmetricDifferenceOnto d

/-- Toggles the values of an entry in entries that need not be settled. -/
def toggleEntry (acc : Array Entry) (e : Entry) : Array Entry :=
  let place := partitionPoint (·.key < e.key) acc
  match acc[place]?.map Entry.key with
  | some key =>
    if key = e.key then
      (updateAt acc place .blank () fun x => (⟨x.key, toggle x.chunk e.chunk⟩, ())).1
    else acc.insertIdxIfInBounds place e
  | none => acc.push e

def toggleAll : List (Except ε IntSet) → Array Entry → Except ε (Array Entry)
  | [], acc => .ok acc
  | .ok s :: rest, acc => toggleAll rest (s.entries.foldl toggleEntry acc)
  | .error e :: _, _ => .error e

def settleAll (acc : Array Entry) : IntSet :=
  ⟨(acc.filter fun e => !e.isEmpty).map fun e => ⟨e.key, e.chunk.settle⟩⟩

def symmetricDifference (inputs : List (Except ε IntSet)) : Except ε IntSet :=
  (toggleAll inputs #[]).map settleAll

def apply (op : Operation) (o : Ownership) (inputs : List (Except ε IntSet)) : Except ε IntSet :=
  match op with
  | .union => union inputs
  | .intersection => intersection o inputs
  | .difference => difference o inputs
  | .symmetricDifference => symmetricDifference inputs

def applyAll (op : Operation) (o : Ownership) (sets : List IntSet) : IntSet :=
  match (apply op o (sets.map .ok) : Except Empty IntSet) with
  | .ok s => s

end Many

end ChunkedSet
