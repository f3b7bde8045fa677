import ChunkedSet.IntSet.Points

/-!
# Text of a set

A set is shown by its values if they are few, else by a summary.
-/

namespace ChunkedSet.IntSet

/-- Sets of fewer values than this are shown value by value. -/
def listedBelow : Nat := 16

def listText (values : List Nat) : String :=
  "[" ++ String.intercalate ", " (values.map toString) ++ "]"

def summary (s : IntSet) (lo hi : Nat) : String :=
  toString s.size ++ " values between " ++ toString lo ++ " and " ++ toString hi ++ " in " ++
    toString s.entries.size ++ " containers"

def text (s : IntSet) : String :=
  let shown :=
    match s.min?, s.max? with
    | some lo, some hi => if listedBelow ≤ s.size then s.summary lo hi else listText s.toList
    | _, _ => listText s.toList
  "RoaringBitmap<" ++ shown ++ ">"

end ChunkedSet.IntSet
