import ChunkedSet.IntSet.Ranges
import ChunkedSet.Cursor.Chunk

/-!
# Cursors over a set

A cursor walks the values of a set from both ends. It holds a cursor for the chunk at either end,
as far as one was opened, and the untouched entries between them.
-/

namespace ChunkedSet

structure EntryCursor where
  key : Nat
  chunk : ChunkCursor

namespace EntryCursor

def ofEntry (e : Entry) : EntryCursor := ⟨e.key, .ofChunk e.chunk⟩

def size (c : EntryCursor) : Nat := c.chunk.size

def peek? (c : EntryCursor) : Option Nat := c.chunk.peek?.map (valueAt c.key)

def peekBack? (c : EntryCursor) : Option Nat := c.chunk.peekBack?.map (valueAt c.key)

def next (c : EntryCursor) : Option Nat × EntryCursor :=
  let (p, chunk) := c.chunk.next
  (p.map (valueAt c.key), { c with chunk })

def nextBack (c : EntryCursor) : Option Nat × EntryCursor :=
  let (p, chunk) := c.chunk.nextBack
  (p.map (valueAt c.key), { c with chunk })

def nth (c : EntryCursor) (n : Nat) : Option Nat × EntryCursor :=
  let (p, chunk) := c.chunk.nth n
  (p.map (valueAt c.key), { c with chunk })

def nthBack (c : EntryCursor) (n : Nat) : Option Nat × EntryCursor :=
  let (p, chunk) := c.chunk.nthBack n
  (p.map (valueAt c.key), { c with chunk })

def advanceTo (c : EntryCursor) (p : Nat) : EntryCursor := { c with chunk := c.chunk.advanceTo p }

def advanceBackTo (c : EntryCursor) (p : Nat) : EntryCursor :=
  { c with chunk := c.chunk.advanceBackTo p }

def take (c : EntryCursor) (room : Nat) : Array Nat × EntryCursor :=
  let (out, chunk) := c.chunk.take room
  (out.map (valueAt c.key), { c with chunk })

def fold {β : Type} (f : β → Nat → β) (acc : β) (c : EntryCursor) : β :=
  c.chunk.fold (fun acc p => f acc (valueAt c.key p)) acc

def foldBack {β : Type} (f : β → Nat → β) (acc : β) (c : EntryCursor) : β :=
  c.chunk.foldBack (fun acc p => f acc (valueAt c.key p)) acc

end EntryCursor

/-- The untouched entries are those from index `start` up to, not including, `stop`. -/
structure Cursor where
  front : Option EntryCursor
  entries : Array Entry
  start : Nat
  stop : Nat
  back : Option EntryCursor

namespace Cursor

def ofSet (s : IntSet) : Cursor := ⟨none, s.entries, 0, s.entries.size, none⟩

def empty : Cursor := ofSet .empty

def rest (c : Cursor) : Array Entry := c.entries.extract c.start c.stop

def nextFromBack (c : Cursor) : Option Nat × Cursor :=
  match c.back with
  | some b =>
    let (v, b) := b.next
    (v, { c with front := none, back := some b })
  | none => (none, { c with front := none })

def nextOpening : Nat → Cursor → Option Nat × Cursor
  | n, c =>
    match c.front.map EntryCursor.next with
    | some (some v, f) => (some v, { c with front := some f })
    | _ =>
      match n with
      | 0 => c.nextFromBack
      | n + 1 =>
        match c.entries[c.start]? with
        | some e => nextOpening n { c with front := some (.ofEntry e), start := c.start + 1 }
        | none => c.nextFromBack

def next (c : Cursor) : Option Nat × Cursor := nextOpening (c.stop - c.start) c

def nextBackFromFront (c : Cursor) : Option Nat × Cursor :=
  match c.front with
  | some f =>
    let (v, f) := f.nextBack
    (v, { c with front := some f, back := none })
  | none => (none, { c with back := none })

def nextBackOpening : Nat → Cursor → Option Nat × Cursor
  | n, c =>
    match c.back.map EntryCursor.nextBack with
    | some (some v, b) => (some v, { c with back := some b })
    | _ =>
      match n with
      | 0 => c.nextBackFromFront
      | n + 1 =>
        match c.entries[c.stop - 1]? with
        | some e => nextBackOpening n { c with back := some (.ofEntry e), stop := c.stop - 1 }
        | none => c.nextBackFromFront

def nextBack (c : Cursor) : Option Nat × Cursor := nextBackOpening (c.stop - c.start) c

def size (c : Cursor) : Nat :=
  c.front.elim 0 EntryCursor.size + c.back.elim 0 EntryCursor.size +
    c.rest.foldl (fun n e => n + e.size) 0

def sizeLimit : Nat := 18446744073709551615

def sizeHint (c : Cursor) : Nat × Option Nat :=
  if c.size ≤ sizeLimit then (c.size, some c.size) else (sizeLimit, none)

/-- Counts the leading entries that hold no more than `n` values together, from `skip` on, and
returns with the count what is left of `n` behind them. -/
def wholeEntries : List Entry → Nat → Nat → Nat × Nat
  | [], skip, n => (skip, n)
  | e :: rest, skip, n => if n < e.size then (skip, n) else wholeEntries rest (skip + 1) (n - e.size)

/-- Drops `n` values of the untouched entries, or of the back cursor, and takes the next one. -/
def nthRest (c : Cursor) (n : Nat) : Option Nat × Cursor :=
  let (skip, n) := wholeEntries c.rest.toList 0 n
  if c.start + skip < c.stop then
    match c.entries[c.start + skip]? with
    | some e =>
      let (v, f) := (EntryCursor.ofEntry e).nth n
      (v, { c with front := some f, start := c.start + skip + 1 })
    | none => (none, c)
  else
    let c := { c with start := c.stop }
    match c.back with
    | some b =>
      if n < b.size then
        let (v, b) := b.nth n
        (v, { c with back := some b })
      else (none, { c with back := none })
    | none => (none, c)

def nth (c : Cursor) (n : Nat) : Option Nat × Cursor :=
  match c.front with
  | some f =>
    if n < f.size then
      let (v, f) := f.nth n
      (v, { c with front := some f })
    else { c with front := none }.nthRest (n - f.size)
  | none => c.nthRest n

def nthBackRest (c : Cursor) (n : Nat) : Option Nat × Cursor :=
  let (skip, n) := wholeEntries c.rest.toList.reverse 0 n
  if c.start + skip < c.stop then
    match c.entries[c.stop - skip - 1]? with
    | some e =>
      let (v, b) := (EntryCursor.ofEntry e).nthBack n
      (v, { c with back := some b, stop := c.stop - skip - 1 })
    | none => (none, c)
  else
    let c := { c with stop := c.start }
    match c.front with
    | some f =>
      if n < f.size then
        let (v, f) := f.nthBack n
        (v, { c with front := some f })
      else (none, { c with front := none })
    | none => (none, c)

def nthBack (c : Cursor) (n : Nat) : Option Nat × Cursor :=
  match c.back with
  | some b =>
    if n < b.size then
      let (v, b) := b.nthBack n
      (v, { c with back := some b })
    else { c with back := none }.nthBackRest (n - b.size)
  | none => c.nthBackRest n

/-- Drops the untouched entries below `key`, opens the one of `key`, and turns to the back cursor
once no entry is left. -/
def advanceRest (c : Cursor) (key p : Nat) : Cursor :=
  let start := partitionPointIn (·.key < key) c.entries c.start c.stop
  let c := { c with start }
  if start < c.stop then
    match c.entries[start]? with
    | some e =>
      if e.key = key then
        { c with front := some ((EntryCursor.ofEntry e).advanceTo p), start := start + 1 }
      else c
    | none => c
  else
    match c.back with
    | some b =>
      if key < b.key then c
      else if key = b.key then { c with back := some (b.advanceTo p) }
      else { c with back := none }
    | none => c

def advanceTo (c : Cursor) (v : Nat) : Cursor :=
  let key := keyOf v
  match c.front with
  | some f =>
    if key < f.key then c
    else if key = f.key then { c with front := some (f.advanceTo (positionOf v)) }
    else { c with front := none }.advanceRest key (positionOf v)
  | none => c.advanceRest key (positionOf v)

def advanceBackRest (c : Cursor) (key p : Nat) : Cursor :=
  let stop := partitionPointIn (·.key ≤ key) c.entries c.start c.stop
  let c := { c with stop }
  if c.start < stop then
    match c.entries[stop - 1]? with
    | some e =>
      if e.key = key then
        { c with back := some ((EntryCursor.ofEntry e).advanceBackTo p), stop := stop - 1 }
      else c
    | none => c
  else
    match c.front with
    | some f =>
      if f.key < key then c
      else if key = f.key then { c with front := some (f.advanceBackTo p) }
      else { c with front := none }
    | none => c

def advanceBackTo (c : Cursor) (v : Nat) : Cursor :=
  let key := keyOf v
  match c.back with
  | some b =>
    if b.key < key then c
    else if key = b.key then { c with back := some (b.advanceBackTo (positionOf v)) }
    else { c with back := none }.advanceBackRest key (positionOf v)
  | none => c.advanceBackRest key (positionOf v)

def firstEntry? (c : Cursor) : Option Entry :=
  if c.start < c.stop then c.entries[c.start]? else none

def lastEntry? (c : Cursor) : Option Entry :=
  if c.start < c.stop then c.entries[c.stop - 1]? else none

def peek? (c : Cursor) : Option Nat :=
  (c.front.bind EntryCursor.peek?).or <|
    (c.firstEntry?.bind fun e => e.chunk.min?.map e.value).or <| c.back.bind EntryCursor.peek?

def peekBack? (c : Cursor) : Option Nat :=
  (c.back.bind EntryCursor.peekBack?).or <|
    (c.lastEntry?.bind fun e => e.chunk.max?.map e.value).or <| c.front.bind EntryCursor.peekBack?

def takeFront (c : Cursor) (room : Nat) : Array Nat × Cursor :=
  match c.front with
  | some f =>
    let (out, f) := f.take room
    (out, { c with front := some f })
  | none => (#[], c)

def takeFromBack (c : Cursor) (room : Nat) (out : Array Nat) : Array Nat × Cursor :=
  match c.back with
  | some b =>
    let (more, b) := b.take (room - out.size)
    (out ++ more, { c with front := none, back := some b })
  | none => (out, { c with front := none })

def takeOpening (room : Nat) : Nat → Array Nat → Cursor → Array Nat × Cursor
  | n, out, c =>
    if room ≤ out.size then (out, c)
    else
      let (more, c) := c.takeFront (room - out.size)
      let out := out ++ more
      if room ≤ out.size then (out, c)
      else
        match n with
        | 0 => c.takeFromBack room out
        | n + 1 =>
          match c.entries[c.start]? with
          | some e =>
            takeOpening room n out { c with front := some (.ofEntry e), start := c.start + 1 }
          | none => c.takeFromBack room out

def nextMany (c : Cursor) (room : Nat) : Array Nat × Cursor :=
  takeOpening room (c.stop - c.start) #[] c

def fold {β : Type} (f : β → Nat → β) (acc : β) (c : Cursor) : β :=
  let acc := c.front.elim acc (EntryCursor.fold f acc)
  let acc := c.rest.foldl (fun acc e => (EntryCursor.ofEntry e).fold f acc) acc
  c.back.elim acc (EntryCursor.fold f acc)

def foldBack {β : Type} (f : β → Nat → β) (acc : β) (c : Cursor) : β :=
  let acc := c.back.elim acc (EntryCursor.foldBack f acc)
  let acc := c.rest.foldr (fun e acc => (EntryCursor.ofEntry e).foldBack f acc) acc
  c.front.elim acc (EntryCursor.foldBack f acc)

def toArray (c : Cursor) : Array Nat := c.fold Array.push #[]

def toArrayBack (c : Cursor) : Array Nat := c.foldBack Array.push #[]

def ofRange (s : IntSet) (range : Bounds) : Cursor :=
  match range.span? with
  | none => empty
  | some span => ((ofSet s).advanceTo span.first).advanceBackTo span.last

end Cursor

end ChunkedSet
