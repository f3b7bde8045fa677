import ChunkedSet.Codec.Bytes
import ChunkedSet.Codec.Error
import ChunkedSet.Codec.HeldSet
import ChunkedSet.Codec.Layout

/-!
# Reading a set

A source is the bytes not yet read. A source with a known length refuses a section that declares
more bytes than remain before it reads any of it; otherwise the input just ends. Checked reading
also refuses content that breaks the order or contradicts the declared size. All buffers come
from a ledger, and those of a refused input go back to it.
-/

namespace ChunkedSet

inductive DecodeMode
  /-- From a reader of unknown length, with all checks. -/
  | reader
  /-- From bytes of known length, with all checks. -/
  | slice
  /-- From a reader of unknown length, without checks of the content. -/
  | unchecked
deriving DecidableEq

def DecodeMode.isChecked (m : DecodeMode) : Bool := m != .unchecked

/-- The bytes not yet read, and how many they are if that is known. -/
structure Source where
  bytes : List UInt8
  remaining : Option Nat
deriving DecidableEq

namespace Source

def ofBytes (mode : DecodeMode) (bytes : List UInt8) : Source :=
  match mode with
  | .slice => ⟨bytes, some bytes.length⟩
  | _ => ⟨bytes, none⟩

/-- Claims the bytes of a section. -/
def reserve (s : Source) (needed : Nat) : Except DecodeError Source :=
  match s.remaining with
  | some remaining =>
    if remaining < needed then .error (.truncated needed remaining)
    else .ok { s with remaining := some (remaining - needed) }
  | none => .ok s

def take (s : Source) (n : Nat) : Except DecodeError (List UInt8 × Source) :=
  let (head, rest) := s.bytes.splitAt n
  if head.length = n then .ok (head, { s with bytes := rest }) else .error .endOfInput

def readSection (s : Source) (n : Nat) : Except DecodeError (List UInt8 × Source) := do
  let s ← s.reserve n
  s.take n

def nat16 (s : Source) : Except DecodeError (Nat × Source) :=
  match s.bytes with
  | b₀ :: b₁ :: rest => .ok (Bytes.toNat [b₀, b₁], { s with bytes := rest })
  | _ => .error .endOfInput

def nat32 (s : Source) : Except DecodeError (Nat × Source) :=
  match s.bytes with
  | b₀ :: b₁ :: b₂ :: b₃ :: rest => .ok (Bytes.toNat [b₀, b₁, b₂, b₃], { s with bytes := rest })
  | _ => .error .endOfInput

def header (s : Source) : Except DecodeError (Header × Source) := do
  let s ← s.reserve 4
  let (cookie, s) ← s.nat32
  if cookie = plainCookie then
    let s ← s.reserve 4
    let (count, s) ← s.nat32
    if chunkSize < count then .error (.tooManyEntries count) else .ok (⟨count, false⟩, s)
  else if cookie % 65536 = runCookie then .ok (⟨cookie / 65536 + 1, true⟩, s)
  else .error (.unknownCookie cookie)

def skipOffsets : Nat → Source → Except DecodeError Source
  | 0, s => .ok s
  | n + 1, s => do
    let s ← s.reserve 4
    let (_, s) ← s.nat32
    skipOffsets n s

def runCount (s : Source) (key : Nat) : Except DecodeError (Nat × Source) := do
  let s ← s.reserve 2
  let (count, s) ← s.nat16
  if count = 0 then .error (.zeroRuns key)
  else if maxRuns < count then .error (.tooManyRuns key count)
  else
    let s ← s.reserve (4 * count)
    .ok (count, s)

/-- Reads `n` claimed runs, each a first position and a size less one. -/
def runs (key : Nat) : Nat → Source → Array Run → Except DecodeError (Array Run × Source)
  | 0, s, out => .ok (out, s)
  | n + 1, s, out => do
    let (first, s) ← s.nat16
    let (length, s) ← s.nat16
    if lastPosition < first + length then .error (.runOverflow key)
    else runs key n s (out.push ⟨first, first + length⟩)

def runChunk (checked : Bool) (key declared count : Nat) (s : Source) :
    Except DecodeError (Chunk × Source) := do
  let (runs, s) ← runs key count s #[]
  let l : RunList := ⟨runs⟩
  if checked then
    match RunFault.find? l.toList none 0 with
    | some fault => .error (.invalidRuns key fault)
    | none => if l.size = declared then .ok (.runs l, s) else .error (.sizeMismatch key declared l.size)
  else .ok (.runs l, s)

def toNats : List UInt8 → Array Nat → Array Nat
  | b₀ :: b₁ :: rest, out => toNats rest (out.push (Bytes.toNat [b₀, b₁]))
  | _, out => out

def arrayChunk (checked : Bool) (key declared : Nat) (s : Source) :
    Except DecodeError (Chunk × Source) := do
  let (bytes, s) ← s.take (arrayBytes declared)
  let a : SortedArray := ⟨toNats bytes #[]⟩
  if checked then
    match OrderFault.find? a.toList 0 with
    | some fault => .error (.invalidArray key fault)
    | none => .ok (.array a, s)
  else .ok (.array a, s)

def toWords : List UInt8 → Array UInt64 → Array UInt64
  | b₀ :: b₁ :: b₂ :: b₃ :: b₄ :: b₅ :: b₆ :: b₇ :: rest, out =>
    toWords rest (out.push (Bytes.toWord b₀ b₁ b₂ b₃ b₄ b₅ b₆ b₇))
  | _, out => out

def blockChunk (checked : Bool) (key declared : Nat) (s : Source) :
    Except DecodeError (Chunk × Source) := do
  let (bytes, s) ← s.take blockBytes
  let b := Block.ofWords (Words.ofList (toWords bytes #[]).toList)
  if checked && b.size != declared then .error (.sizeMismatch key declared b.size)
  else .ok (.block b, s)

end Source

structure ReadChunk where
  chunk : Chunk
  buffer : Buffer
  source : Source

namespace Ledger

/-- Reads into a buffer, which goes back if the content is refused. -/
def readInto (l : Ledger) (request : Request) (content : Except DecodeError (Chunk × Source)) :
    Except DecodeError ReadChunk × Ledger :=
  let (buffer, l) := l.allocate request
  match content with
  | .ok (chunk, source) => (.ok ⟨chunk, buffer, source⟩, l)
  | .error e => (.error e, l.release buffer)

def readChunk (l : Ledger) (checked isRuns : Bool) (key declared : Nat) (s : Source) :
    Except DecodeError ReadChunk × Ledger :=
  if isRuns then
    match s.runCount key with
    | .error e => (.error e, l)
    | .ok (count, s) => l.readInto (.vector 2 count) (s.runChunk checked key declared count)
  else if declared ≤ arrayLimit then
    match s.reserve (arrayBytes declared) with
    | .error e => (.error e, l)
    | .ok s => l.readInto (.vector 2 declared) (s.arrayChunk checked key declared)
  else
    match s.reserve blockBytes with
    | .error e => (.error e, l)
    | .ok s => l.readInto .words (s.blockChunk checked key declared)

end Ledger

structure DecodeState where
  descriptions : List UInt8
  entries : Array Entry
  buffers : Array Buffer
  source : Source

namespace DecodeState

/-- The key and the declared size of the next entry, which its key must not precede. -/
def description? (d : DecodeState) : Option ((Nat × Nat) × List UInt8) :=
  match d.descriptions with
  | b₀ :: b₁ :: b₂ :: b₃ :: rest =>
    some ((Bytes.toNat [b₀, b₁], Bytes.toNat [b₂, b₃] + 1), rest)
  | _ => none

def readEntries (checked : Bool) (flags : Array UInt8) (frame : Buffer) :
    Nat → DecodeState → Ledger → Except DecodeError (HeldSet × Source) × Ledger
  | 0, d, l => (.ok (⟨⟨d.entries⟩, frame, d.buffers⟩, d.source), l)
  | n + 1, d, l =>
    match d.description? with
    | none => (.ok (⟨⟨d.entries⟩, frame, d.buffers⟩, d.source), l)
    | some ((key, declared), descriptions) =>
      let index := d.entries.size
      let (read, l) :=
        if d.entries.back?.any fun e => decide (key ≤ e.key) then
          (.error (.unsortedKeys index), l)
        else l.readChunk checked (Bytes.bitAt flags index) key declared d.source
      match read with
      | .ok r =>
        readEntries checked flags frame n
          ⟨descriptions, d.entries.push ⟨key, r.chunk⟩, d.buffers.push r.buffer, r.source⟩ l
      | .error e => (.error e, (l.releaseAll d.buffers.toList).release frame)

end DecodeState

structure Preamble where
  header : Header
  flags : Array UInt8
  descriptions : List UInt8

def Source.preamble (s : Source) : Except DecodeError (Preamble × Source) := do
  let (header, s) ← s.header
  let (flags, s) ← s.readSection header.flagBytes
  let (descriptions, s) ← s.readSection (4 * header.count)
  let s ← if header.hasOffsets then s.skipOffsets header.count else .ok s
  .ok (⟨header, flags.toArray, descriptions⟩, s)

def Ledger.decode (l : Ledger) (mode : DecodeMode) (bytes : List UInt8) :
    Except DecodeError (HeldSet × Source) × Ledger :=
  match (Source.ofBytes mode bytes).preamble with
  | .error e => (.error e, l)
  | .ok (p, s) =>
    let (frame, l) := l.allocate (.vector 8 p.header.count)
    DecodeState.readEntries mode.isChecked p.flags frame p.header.count
      ⟨p.descriptions, #[], #[], s⟩ l

def decodeWithRest (mode : DecodeMode) (bytes : List UInt8) :
    Except DecodeError (IntSet × List UInt8) :=
  match (Ledger.empty.decode mode bytes).1 with
  | .ok (h, s) => .ok (h.set, s.bytes)
  | .error e => .error e

def decode (mode : DecodeMode) (bytes : List UInt8) : Except DecodeError IntSet :=
  (decodeWithRest mode bytes).map Prod.fst

end ChunkedSet
