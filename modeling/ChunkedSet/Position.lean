/-!
# Keys and positions

A value of the 32-bit domain is a key, which names the chunk of 65536 consecutive values it
lies in, and a position inside that chunk.
-/

namespace ChunkedSet

/-- Number of positions of one chunk, and number of keys. -/
def chunkSize : Nat := 65536

/-- The greatest position of a chunk, and the greatest key. -/
def lastPosition : Nat := 65535

def domainSize : Nat := 4294967296

def keyOf (value : Nat) : Nat := value / 65536

def positionOf (value : Nat) : Nat := value % 65536

def valueAt (key position : Nat) : Nat := key * 65536 + position

theorem valueAt_keyOf (value : Nat) : valueAt (keyOf value) (positionOf value) = value := by
  simp only [valueAt, keyOf, positionOf]
  omega

theorem keyOf_valueAt {position : Nat} (key : Nat) (h : position < chunkSize) :
    keyOf (valueAt key position) = key := by
  simp only [valueAt, keyOf, chunkSize] at *
  omega

theorem positionOf_valueAt {position : Nat} (key : Nat) (h : position < chunkSize) :
    positionOf (valueAt key position) = position := by
  simp only [valueAt, positionOf, chunkSize] at *
  omega

theorem positionOf_lt (value : Nat) : positionOf value < chunkSize := by
  simp only [positionOf, chunkSize]
  omega

theorem keyOf_lt {value : Nat} (h : value < domainSize) : keyOf value < chunkSize := by
  simp only [keyOf, chunkSize, domainSize] at *
  omega

end ChunkedSet
