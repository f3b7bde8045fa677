import ChunkedSet.Codec.Bytes
import ChunkedSet.Codec.Error
import ChunkedSet.Codec.Layout

/-!
# Writing a set

`IntSet.encode` is the sequence of bytes of a set, and `IntSet.writeInto` the attempt to put it
into a buffer of fixed size.
-/

namespace ChunkedSet

namespace Header

def encode (h : Header) (flags : List Bool) : List UInt8 :=
  if h.hasRuns then Bytes.ofNat 4 (runCookie + (h.count - 1) * 65536) ++ Bytes.pack flags
  else Bytes.ofNat 4 plainCookie ++ Bytes.ofNat 4 h.count

end Header

/-- Key and size, which is written less one so that a full chunk fits into 16 bits. -/
def Entry.encodeDescription (e : Entry) : List UInt8 :=
  Bytes.ofNat 2 e.key ++ Bytes.ofNat 2 (e.size + 65535)

/-- Where the payloads begin, the first one at `start`. They are written with 32 bits and so modulo
2^32, as in a build without overflow checks; a build with them stops where the sum reaches 4 GiB. -/
def Entry.offsets (entries : Array Entry) (start : Nat) : List Nat :=
  (entries.foldl (fun (offset, out) e => (offset + e.chunk.bytes, out.push offset))
    (start, #[])).2.toList

def Chunk.encode : Chunk → List UInt8
  | array a => a.toList.flatMap (Bytes.ofNat 2)
  | block b => b.words.toList.flatMap Bytes.ofWord
  | runs l =>
    Bytes.ofNat 2 l.runCount ++
      l.toList.flatMap fun r => Bytes.ofNat 2 r.first ++ Bytes.ofNat 2 (r.last - r.first)

namespace IntSet

/-- The bytes of a set. Offsets of payloads beyond 4 GiB are cut to 32 bits, where a build with
overflow checks stops instead. -/
def encode (s : IntSet) : List UInt8 :=
  let header := Header.ofSet s
  let entries := s.entries.toList
  header.encode (entries.map (·.chunk.isRuns)) ++
    entries.flatMap Entry.encodeDescription ++
    (if header.hasOffsets then (Entry.offsets s.entries header.bytes).flatMap (Bytes.ofNat 4)
      else []) ++
    entries.flatMap (·.chunk.encode)

def writeBytes : List UInt8 → Nat → Array UInt8 → Except WriteError (Array UInt8)
  | [], _, out => .ok out
  | _ :: _, 0, _ => .error .bufferFull
  | b :: rest, room + 1, out => writeBytes rest room (out.push b)

def writeInto (s : IntSet) (capacity : Nat) : Except WriteError (Array UInt8) :=
  writeBytes s.encode capacity #[]

end IntSet

end ChunkedSet
