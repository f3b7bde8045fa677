import ChunkedSet.RunList.Basic

/-!
# Set operations on lists of runs

Each operation walks its operands once, in order, and pushes maximal runs.
-/

namespace ChunkedSet.RunList

/-- Adds a run that starts no earlier than the last one: they become one run if they touch. -/
def absorb (out : Array Run) (r : Run) : Array Run :=
  match out.back? with
  | some l => if r.first ≤ l.last + 1 then out.pop.push ⟨l.first, max l.last r.last⟩ else out.push r
  | none => out.push r

def union (a b : RunList) : RunList :=
  ⟨(List.merge a.toList b.toList fun l r => decide (l.first ≤ r.first)).foldl absorb #[]⟩

/-- Folds over the pairs of runs that may overlap; the run that ends first is left behind. -/
def foldPairs {β : Type} (f : β → Run → Run → β) : List Run → List Run → β → β
  | [], _, out => out
  | _, [], out => out
  | x :: xs, y :: ys, out =>
    if x.last < y.last then foldPairs f xs (y :: ys) (f out x y)
    else foldPairs f (x :: xs) ys (f out x y)
termination_by xs ys => xs.length + ys.length

def pushOverlap (out : Array Run) (x y : Run) : Array Run :=
  let start := max x.first y.first
  let stop := min x.last y.last
  if start ≤ stop then out.push ⟨start, stop⟩ else out

def intersection (a b : RunList) : RunList := ⟨foldPairs pushOverlap a.toList b.toList #[]⟩

def intersectionSize (a b : RunList) : Nat :=
  foldPairs (fun n x y => n + x.overlap y.first y.last) a.toList b.toList 0

def isDisjointFrom : List Run → List Run → Bool
  | [], _ => true
  | _, [] => true
  | x :: xs, y :: ys =>
    if x.overlap y.first y.last ≠ 0 then false
    else if x.last < y.last then isDisjointFrom xs (y :: ys)
    else isDisjointFrom (x :: xs) ys
termination_by xs ys => xs.length + ys.length

def isDisjoint (a b : RunList) : Bool := isDisjointFrom a.toList b.toList

/-- Pushes what is left from `start` to `stop` once the given runs are cut out. -/
def cut (stop : Nat) : List Run → Nat → Array Run → Array Run
  | [], start, out => if start ≤ stop then out.push ⟨start, stop⟩ else out
  | b :: rest, start, out =>
    if b.first ≤ stop then
      let out := if start < b.first then out.push ⟨start, b.first - 1⟩ else out
      if b.last + 1 ≤ stop then cut stop rest (b.last + 1) out else out
    else if start ≤ stop then out.push ⟨start, stop⟩ else out

def differenceFrom : List Run → List Run → Array Run → Array Run
  | [], _, out => out
  | x :: xs, ys, out =>
    let ys := ys.dropWhile (·.last < x.first)
    differenceFrom xs ys (cut x.last ys x.first out)

def difference (a b : RunList) : RunList := ⟨differenceFrom a.toList b.toList #[]⟩

def symmetricDifference (a b : RunList) : RunList := (a.union b).difference (a.intersection b)

def gapsFrom (last : Nat) : List Run → Nat → Array Run → Array Run
  | [], next, out => if next ≤ last then out.push ⟨next, last⟩ else out
  | r :: rest, next, out =>
    if last < r.first then if next ≤ last then out.push ⟨next, last⟩ else out
    else
      gapsFrom last rest (max next (r.last + 1))
        (if next < r.first then out.push ⟨next, r.first - 1⟩ else out)

/-- The runs of the positions up to `last` that no given run covers. The given runs are in
order and do not overlap, but may touch. -/
def gapsWithin (runs : List Run) (last : Nat) : RunList := ⟨gapsFrom last runs 0 #[]⟩

def singletons (a : SortedArray) : List Run := a.toList.map fun v => ⟨v, v⟩

def isDisjointSorted (l : RunList) (a : SortedArray) : Bool :=
  l.runs.all fun r => a.rangeSize r.first r.last == 0

def isDisjointBlock (l : RunList) (b : Block) : Bool :=
  l.runs.all fun r => b.rangeSize r.first r.last == 0

def intersectionSizeSorted (l : RunList) (a : SortedArray) : Nat :=
  l.runs.foldl (fun n r => n + a.rangeSize r.first r.last) 0

def intersectionSizeBlock (l : RunList) (b : Block) : Nat :=
  l.runs.foldl (fun n r => n + b.rangeSize r.first r.last) 0

end ChunkedSet.RunList

namespace ChunkedSet

/-- Keeps the values that satisfy `inRun` of the first run not ended before them. -/
def SortedArray.filterByRuns (inRun : Option Run → Nat → Bool) :
    List Nat → List Run → Array Nat → Array Nat
  | [], _, out => out
  | v :: rest, runs, out =>
    let runs := runs.dropWhile (·.last < v)
    filterByRuns inRun rest runs (if inRun runs.head? v then out.push v else out)

def SortedArray.retainRuns (a : SortedArray) (l : RunList) : SortedArray :=
  ⟨filterByRuns (fun r v => r.elim false fun r => decide (r.first ≤ v)) a.toList l.toList #[]⟩

def SortedArray.eraseRuns (a : SortedArray) (l : RunList) : SortedArray :=
  ⟨filterByRuns (fun r v => r.elim true fun r => decide (v < r.first)) a.toList l.toList #[]⟩

namespace Block

def insertRuns (b : Block) (l : RunList) : Block :=
  l.runs.foldl (fun b r => (b.insertRange r.first r.last).1) b

def eraseRuns (b : Block) (l : RunList) : Block :=
  l.runs.foldl (fun b r => (b.eraseRange r.first r.last).1) b

def flipRuns (b : Block) (l : RunList) : Block :=
  l.runs.foldl (fun b r => b.flipRange r.first r.last) b

def retainFrom : List Run → Nat → Block → Block
  | [], next, b => if next < chunkSize then (b.eraseRange next lastPosition).1 else b
  | r :: rest, next, b =>
    retainFrom rest (r.last + 1)
      (if next < r.first then (b.eraseRange next (r.first - 1)).1 else b)

def retainRuns (b : Block) (l : RunList) : Block := retainFrom l.toList 0 b

end Block

end ChunkedSet
