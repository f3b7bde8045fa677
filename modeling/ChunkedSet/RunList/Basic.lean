import ChunkedSet.Block.Basic

/-!
# Lists of runs

A chunk as its maximal runs of consecutive positions, in increasing order and with a gap between
any two. Both ends of a run belong to it.
-/

namespace ChunkedSet

structure Run where
  first : Nat
  last : Nat
deriving DecidableEq

namespace Run

def size (r : Run) : Nat := r.last - r.first + 1

def overlap (r : Run) (lo hi : Nat) : Nat :=
  let start := max r.first lo
  let stop := min r.last hi
  if start ≤ stop then stop - start + 1 else 0

end Run

structure RunList where
  runs : Array Run
deriving DecidableEq

inductive RunFault
  | reversed (index : Nat)
  | notMaximal (index : Nat)
deriving DecidableEq

/-- The first fault of a list, whose head has the given index and follows the run `before`. -/
def RunFault.find? : List Run → Option Run → Nat → Option RunFault
  | [], _, _ => none
  | r :: rest, before, index =>
    if r.last < r.first then some (.reversed index)
    else
      match before with
      | some b =>
        if r.first ≤ b.last + 1 then some (.notMaximal index)
        else find? rest (some r) (index + 1)
      | none => find? rest (some r) (index + 1)

namespace RunList

def empty : RunList := ⟨#[]⟩

def full : RunList := ⟨#[⟨0, lastPosition⟩]⟩

def ofRange (lo hi : Nat) : RunList := ⟨#[⟨lo, hi⟩]⟩

def toList (l : RunList) : List Run := l.runs.toList

def runCount (l : RunList) : Nat := l.runs.size

def isEmpty (l : RunList) : Bool := l.runs.isEmpty

def size (l : RunList) : Nat := l.runs.foldl (fun n r => n + r.size) 0

def min? (l : RunList) : Option Nat := l.runs[0]?.map Run.first

def max? (l : RunList) : Option Nat := l.runs.back?.map Run.last

/-- Appends `p`, which exceeds every position. -/
def append (l : RunList) (p : Nat) : RunList :=
  match l.runs.back? with
  | some r => if r.last + 1 = p then ⟨l.runs.pop.push ⟨r.first, p⟩⟩ else ⟨l.runs.push ⟨p, p⟩⟩
  | none => ⟨l.runs.push ⟨p, p⟩⟩

def push (l : RunList) (p : Nat) : RunList × Bool :=
  match l.max? with
  | some last => if last < p then (l.append p, true) else (l, false)
  | none => (l.append p, true)

def ofSorted (a : SortedArray) : RunList := a.values.foldl append empty

/-- Collects the runs of a block from the position `start` of the next run on. -/
def ofBlockFrom (b : Block) : Nat → Option Nat → Array Run → Array Run
  | 0, _, out => out
  | _, none, out => out
  | fuel + 1, some start, out =>
    match b.words.nextClear? start with
    | some gap => ofBlockFrom b fuel (b.next? gap) (out.push ⟨start, gap - 1⟩)
    | none => out.push ⟨start, lastPosition⟩

def ofBlock (b : Block) : RunList := ⟨ofBlockFrom b chunkSize (b.next? 0) #[]⟩

def toSorted (l : RunList) : SortedArray :=
  ⟨l.runs.foldl (fun out r => out ++ Array.range' r.first r.size) #[]⟩

def toBlock (l : RunList) : Block :=
  l.runs.foldl (fun b r => (b.insertRange r.first r.last).1) Block.empty

def place (l : RunList) (p : Nat) : Nat := partitionPoint (·.last < p) l.runs

def contains (l : RunList) (p : Nat) : Bool :=
  match l.runs[l.place p]? with
  | some r => decide (r.first ≤ p)
  | none => false

def containsRange (l : RunList) (lo hi : Nat) : Bool :=
  match l.runs[l.place lo]? with
  | some r => decide (r.first ≤ lo) && decide (hi ≤ r.last)
  | none => false

/-- The indices of the runs that overlap `lo` to `hi`: from the first, up to the second. -/
def window (l : RunList) (lo hi : Nat) : Nat × Nat :=
  let start := l.place lo
  (start, partitionPointIn (·.first ≤ hi) l.runs start l.runs.size)

def totalOverlap (met : Array Run) (lo hi : Nat) : Nat :=
  met.foldl (fun n r => n + r.overlap lo hi) 0

def rangeSize (l : RunList) (lo hi : Nat) : Nat :=
  let (start, stop) := l.window lo hi
  totalOverlap (l.runs.extract start stop) lo hi

def insertRange (l : RunList) (lo hi : Nat) : RunList × Nat :=
  let start := partitionPoint (·.last + 1 < lo) l.runs
  let stop := partitionPointIn (·.first ≤ hi + 1) l.runs start l.runs.size
  let met := l.runs.extract start stop
  let merged : Run :=
    ⟨min lo (met[0]?.elim lo Run.first), max hi (met.back?.elim hi Run.last)⟩
  (⟨(l.runs.extract 0 start).push merged ++ l.runs.extract stop l.runs.size⟩,
    hi - lo + 1 - totalOverlap met lo hi)

def insert (l : RunList) (p : Nat) : RunList × Bool :=
  let (l', added) := l.insertRange p p
  (l', added == 1)

def remains (met : Array Run) (lo hi : Nat) : Array Run :=
  let head := met[0]?.elim #[] fun r => if r.first < lo then #[⟨r.first, lo - 1⟩] else #[]
  let tail := met.back?.elim #[] fun r => if hi < r.last then #[⟨hi + 1, r.last⟩] else #[]
  head ++ tail

def eraseRange (l : RunList) (lo hi : Nat) : RunList × Nat :=
  let (start, stop) := l.window lo hi
  let met := l.runs.extract start stop
  (⟨l.runs.extract 0 start ++ remains met lo hi ++ l.runs.extract stop l.runs.size⟩,
    totalOverlap met lo hi)

def erase (l : RunList) (p : Nat) : RunList × Bool :=
  let (l', removed) := l.eraseRange p p
  (l', removed == 1)

def dropSmallestIn : List Run → Nat → List Run
  | [], _ => []
  | r :: rest, n =>
    if n = 0 then r :: rest
    else if r.size ≤ n then dropSmallestIn rest (n - r.size)
    else ⟨r.first + n, r.last⟩ :: rest

def dropSmallest (l : RunList) (n : Nat) : RunList := ⟨(dropSmallestIn l.toList n).toArray⟩

def dropBiggestIn : List Run → Nat → List Run
  | [], _ => []
  | r :: rest, n =>
    if n = 0 then r :: rest
    else if r.size ≤ n then dropBiggestIn rest (n - r.size)
    else ⟨r.first, r.last - n⟩ :: rest

def dropBiggest (l : RunList) (n : Nat) : RunList :=
  ⟨(dropBiggestIn l.toList.reverse n).reverse.toArray⟩

def rank (l : RunList) (p : Nat) : Nat :=
  let index := l.place p
  let before := (l.runs.extract 0 index).foldl (fun n r => n + r.size) 0
  match l.runs[index]? with
  | some r => if r.first ≤ p then before + (p - r.first) + 1 else before
  | none => before

def selectIn : List Run → Nat → Option Nat
  | [], _ => none
  | r :: rest, n => if n < r.size then some (r.first + n) else selectIn rest (n - r.size)

def select (l : RunList) (n : Nat) : Option Nat := selectIn l.toList n

def next? (l : RunList) (p : Nat) : Option Nat :=
  l.runs[l.place p]?.map fun r => max r.first p

def lastUpTo? (l : RunList) (p : Nat) : Option Run :=
  match partitionPoint (·.first ≤ p) l.runs with
  | 0 => none
  | n + 1 => l.runs[n]?

def previous? (l : RunList) (p : Nat) : Option Nat := (l.lastUpTo? p).map fun r => min r.last p

def nextAbsent? (l : RunList) (p : Nat) : Option Nat :=
  match l.runs[l.place p]? with
  | some r =>
    if r.first ≤ p then
      if r.last < lastPosition then some (r.last + 1) else none
    else some p
  | none => some p

def previousAbsent? (l : RunList) (p : Nat) : Option Nat :=
  match l.lastUpTo? p with
  | some r =>
    if p ≤ r.last then
      match r.first with
      | 0 => none
      | n + 1 => some n
    else some p
  | none => some p

end RunList

end ChunkedSet
