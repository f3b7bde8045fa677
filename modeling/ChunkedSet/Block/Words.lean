import ChunkedSet.Position
import ChunkedSet.Word

/-!
# Blocks of 1024 words

The characteristic bits of a chunk: position `p` is bit `p % 64` of word `p / 64`. A range of
positions is visited word by word, each word with the mask of its bits inside the range.
-/

namespace ChunkedSet

abbrev Words := Vector UInt64 1024

namespace Words

def empty : Words := Vector.replicate 1024 0

def word (ws : Words) (k : Nat) : UInt64 := if h : k < 1024 then ws[k] else 0

def update (ws : Words) (k : Nat) (f : UInt64 → UInt64) : Words :=
  if h : k < 1024 then ws.set k (f ws[k]) else ws

def ofList (list : List UInt64) : Words :=
  let array := list.toArray
  Vector.ofFn fun k => array.getD k.val 0

def contains (ws : Words) (p : Nat) : Bool :=
  ws.word (p / 64) &&& Word.bit (p % 64) != 0

def popcount (ws : Words) : Nat := ws.foldl (fun n w => n + Word.popcount w) 0

def insert (ws : Words) (p : Nat) : Words := ws.update (p / 64) (· ||| Word.bit (p % 64))

def erase (ws : Words) (p : Nat) : Words := ws.update (p / 64) (· &&& ~~~(Word.bit (p % 64)))

/-- The bits of word `k` that stand for positions from `lo` to `hi`, where `k` is the index of
a word that holds some of them. -/
def rangeMask (lo hi k : Nat) : UInt64 :=
  (if k = lo / 64 then Word.upward (lo % 64) else Word.ones) &&&
    (if k = hi / 64 then Word.downward (hi % 64) else Word.ones)

def rangeMasks (lo hi : Nat) : List (Nat × UInt64) :=
  (List.range' (lo / 64) (hi / 64 + 1 - lo / 64)).map fun k => (k, rangeMask lo hi k)

def updateRange (ws : Words) (lo hi : Nat) (f : Nat → UInt64 → UInt64 → UInt64) : Words :=
  (rangeMasks lo hi).foldl (fun ws km => ws.update km.1 (f km.1 km.2)) ws

def sumRange (ws : Words) (lo hi : Nat) (f : Nat → UInt64 → UInt64 → UInt64) : Nat :=
  (rangeMasks lo hi).foldl (fun n km => n + Word.popcount (f km.1 km.2 (ws.word km.1))) 0

def insertRange (ws : Words) (lo hi : Nat) : Words :=
  ws.updateRange lo hi fun _ mask w => w ||| mask

def eraseRange (ws : Words) (lo hi : Nat) : Words :=
  ws.updateRange lo hi fun _ mask w => w &&& ~~~mask

def flipRange (ws : Words) (lo hi : Nat) : Words :=
  ws.updateRange lo hi fun _ mask w => w ^^^ mask

def rangeSize (ws : Words) (lo hi : Nat) : Nat := ws.sumRange lo hi fun _ mask w => w &&& mask

def containsRange (ws : Words) (lo hi : Nat) : Bool :=
  (rangeMasks lo hi).all fun km => ws.word km.1 &&& km.2 == km.2

/-- Looks for a set bit in word `k`, of which `w` is left, and in up to `fuel` words after it. -/
def firstIn (ws : Words) (stop : Nat) : Nat → Nat → UInt64 → Option Nat
  | fuel, k, w =>
    if w ≠ 0 then
      let found := k * 64 + Word.lowest w
      if found < stop then some found else none
    else
      match fuel with
      | 0 => none
      | fuel + 1 =>
        if stop ≤ (k + 1) * 64 then none else firstIn ws stop fuel (k + 1) (ws.word (k + 1))

def firstBetween (ws : Words) (start stop : Nat) : Option Nat :=
  if start < stop then
    firstIn ws stop 1024 (start / 64) (ws.word (start / 64) &&& Word.upward (start % 64))
  else none

def lastIn (ws : Words) (start : Nat) : Nat → UInt64 → Option Nat
  | k, w =>
    if w ≠ 0 then
      let found := k * 64 + Word.highest w
      if start ≤ found then some found else none
    else
      match k with
      | 0 => none
      | k + 1 => if (k + 1) * 64 ≤ start then none else lastIn ws start k (ws.word k)

def lastBetween (ws : Words) (start stop : Nat) : Option Nat :=
  if start < stop then
    let last := stop - 1
    lastIn ws start (last / 64) (ws.word (last / 64) &&& Word.downward (last % 64))
  else none

/-- The first clear position, with `w` the clear bits of word `k` still in question. -/
def firstClearIn (ws : Words) : Nat → Nat → UInt64 → Option Nat
  | fuel, k, w =>
    if w ≠ 0 then some (k * 64 + Word.lowest w)
    else
      match fuel with
      | 0 => none
      | fuel + 1 =>
        if k + 1 < 1024 then firstClearIn ws fuel (k + 1) (~~~(ws.word (k + 1))) else none

def nextClear? (ws : Words) (p : Nat) : Option Nat :=
  firstClearIn ws 1024 (p / 64) (~~~(ws.word (p / 64)) &&& Word.upward (p % 64))

def lastClearIn (ws : Words) : Nat → UInt64 → Option Nat
  | k, w =>
    if w ≠ 0 then some (k * 64 + Word.highest w)
    else
      match k with
      | 0 => none
      | k + 1 => lastClearIn ws k (~~~(ws.word k))

def previousClear? (ws : Words) (p : Nat) : Option Nat :=
  lastClearIn ws (p / 64) (~~~(ws.word (p / 64)) &&& Word.downward (p % 64))

def rank (ws : Words) (p : Nat) : Nat :=
  (ws.toList.take (p / 64)).foldl (fun n w => n + Word.popcount w) 0 +
    Word.popcount (ws.word (p / 64) <<< UInt64.ofNat (63 - p % 64))

/-- The set position of rank `n` in a list of words, the first of which has index `k`. -/
def selectIn : List UInt64 → Nat → Nat → Option Nat
  | [], _, _ => none
  | w :: rest, k, n =>
    let size := Word.popcount w
    if n < size then some (k * 64 + Word.select w n) else selectIn rest (k + 1) (n - size)

def select (ws : Words) (n : Nat) : Option Nat := selectIn ws.toList 0 n

/-- Counts the set bits whose lower neighbour is clear; `carry` is the bit below the list. -/
def runsIn : List UInt64 → UInt64 → Nat → Nat
  | [], _, runs => runs
  | w :: rest, carry, runs =>
    runsIn rest (w >>> 63) (runs + Word.popcount (w &&& ~~~((w <<< 1) ||| carry)))

def runCount (ws : Words) : Nat := runsIn ws.toList 0 0

def dropIn (drop : UInt64 → UInt64) : List UInt64 → Nat → List UInt64
  | [], _ => []
  | w :: rest, n =>
    let size := Word.popcount w
    if n < size then Word.dropTimes drop n w :: rest else 0 :: dropIn drop rest (n - size)

def dropSmallest (ws : Words) (n : Nat) : Words := ofList (dropIn Word.dropLowest ws.toList n)

def dropBiggest (ws : Words) (n : Nat) : Words :=
  ofList (dropIn Word.dropHighest ws.toList.reverse n).reverse

/-- The set bits of a word in increasing order, `p` being the position of its bit zero. -/
def pushBits : Nat → UInt64 → Nat → Array Nat → Array Nat
  | 0, _, _, out => out
  | fuel + 1, w, p, out =>
    if w = 0 then out
    else pushBits fuel (w >>> 1) (p + 1) (if w &&& 1 = 1 then out.push p else out)

def positions (ws : Words) : Array Nat :=
  (ws.foldl (fun (kp : Nat × Array Nat) w => (kp.1 + 64, pushBits 64 w kp.1 kp.2)) (0, #[])).2

end Words

end ChunkedSet
