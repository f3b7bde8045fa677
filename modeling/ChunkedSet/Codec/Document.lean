import ChunkedSet.Codec.Reader
import ChunkedSet.Codec.Writer

/-!
# Exchange with other data formats

In a document of another format a set is its written bytes. A format without byte strings has a
sequence of numbers instead.
-/

namespace ChunkedSet

/-- What a document may have where a set is expected. -/
inductive Document
  | bytes (content : List UInt8)
  | sequence (elements : List Nat)
  | number (value : Nat)

inductive ExchangeError
  | decode (error : DecodeError)
  /-- An element of a sequence is no byte. -/
  | notByte (element : Nat)
  | notBytes (value : Nat)
deriving DecidableEq

def ExchangeError.message : ExchangeError → String
  | decode error => error.message
  | notByte element => "invalid value: integer `" ++ toString element ++ "`, expected u8"
  | notBytes value =>
    "invalid type: integer `" ++ toString value ++
      "`, expected the bytes of a serialized roaring bitmap"

namespace Document

def toBytes : List Nat → Array UInt8 → Except ExchangeError (List UInt8)
  | [], out => .ok out.toList
  | n :: rest, out =>
    if n < 256 then toBytes rest (out.push (UInt8.ofNat n)) else .error (.notByte n)

def ofBytes (content : List UInt8) : Except ExchangeError IntSet :=
  match decode .slice content with
  | .ok s => .ok s
  | .error e => .error (.decode e)

def toSet : Document → Except ExchangeError IntSet
  | bytes content => ofBytes content
  | sequence elements =>
    match toBytes elements #[] with
    | .ok content => ofBytes content
    | .error e => .error e
  | number value => .error (.notBytes value)

def sequenceText (s : IntSet) : String :=
  "[" ++ String.intercalate "," (s.encode.map fun b => toString b.toNat) ++ "]"

end Document

end ChunkedSet
