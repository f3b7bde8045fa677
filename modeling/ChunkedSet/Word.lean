/-!
# Words of 64 bits

Bit counts, the ends of a word's set bits, and the masks that select a part of a word.
-/

namespace ChunkedSet.Word

def ones : UInt64 := 0xFFFFFFFFFFFFFFFF

def bit (i : Nat) : UInt64 := 1 <<< UInt64.ofNat i

/-- The bits from `i` on, for `i < 64`. -/
def upward (i : Nat) : UInt64 := ones <<< UInt64.ofNat i

/-- The bits up to `i`, `i` included, for `i < 64`. -/
def downward (i : Nat) : UInt64 := ones >>> UInt64.ofNat (63 - i)

def countLow : Nat → UInt64 → Nat
  | 0, _ => 0
  | n + 1, w => if w = 0 then 0 else (w &&& 1).toNat + countLow n (w >>> 1)

def popcount (w : UInt64) : Nat := countLow 64 w

def zerosLow : Nat → UInt64 → Nat
  | 0, _ => 0
  | n + 1, w => if w &&& 1 = 1 then 0 else zerosLow n (w >>> 1) + 1

def lowest (w : UInt64) : Nat := zerosLow 64 w

def highest (w : UInt64) : Nat := w.log2.toNat

def dropLowest (w : UInt64) : UInt64 := w &&& (w - 1)

def dropHighest (w : UInt64) : UInt64 := w &&& ~~~(bit (highest w))

def dropTimes (drop : UInt64 → UInt64) : Nat → UInt64 → UInt64
  | 0, w => w
  | n + 1, w => dropTimes drop n (drop w)

/-- The set bit of rank `n`, counted from zero and from the low end. -/
def select (w : UInt64) (n : Nat) : Nat := lowest (dropTimes dropLowest n w)

end ChunkedSet.Word
