/-!
# Numbers as bytes

Little-endian numbers of a fixed width, and bits packed eight to a byte, the first one lowest.
-/

namespace ChunkedSet.Bytes

/-- The number modulo 256 to the power of the width. -/
def ofNat : Nat → Nat → List UInt8
  | 0, _ => []
  | width + 1, n => UInt8.ofNat (n % 256) :: ofNat width (n / 256)

def toNat : List UInt8 → Nat
  | [] => 0
  | b :: rest => b.toNat + 256 * toNat rest

theorem length_ofNat (width n : Nat) : (ofNat width n).length = width := by
  induction width generalizing n with
  | zero => rfl
  | succ width ih => simp only [ofNat, List.length_cons, ih]

def ofWord (w : UInt64) : List UInt8 :=
  [w.toUInt8, (w >>> 8).toUInt8, (w >>> 16).toUInt8, (w >>> 24).toUInt8,
    (w >>> 32).toUInt8, (w >>> 40).toUInt8, (w >>> 48).toUInt8, (w >>> 56).toUInt8]

def toWord (b₀ b₁ b₂ b₃ b₄ b₅ b₆ b₇ : UInt8) : UInt64 :=
  b₀.toUInt64 ||| b₁.toUInt64 <<< 8 ||| b₂.toUInt64 <<< 16 ||| b₃.toUInt64 <<< 24 |||
    b₄.toUInt64 <<< 32 ||| b₅.toUInt64 <<< 40 ||| b₆.toUInt64 <<< 48 ||| b₇.toUInt64 <<< 56

def packByte (bits : List Bool) : UInt8 :=
  bits.foldr (fun bit b => b <<< 1 ||| bit.toUInt8) 0

/-- Eight bits to a byte; the last byte is filled up with zeros. -/
def pack : List Bool → List UInt8
  | b₀ :: b₁ :: b₂ :: b₃ :: b₄ :: b₅ :: b₆ :: b₇ :: rest =>
    packByte [b₀, b₁, b₂, b₃, b₄, b₅, b₆, b₇] :: pack rest
  | [] => []
  | bits => [packByte bits]

def bitAt (packed : Array UInt8) (i : Nat) : Bool :=
  match packed[i / 8]? with
  | some b => b &&& (1 <<< UInt8.ofNat (i % 8)) != 0
  | none => false

end ChunkedSet.Bytes
