import ChunkedSet.IntSet.Algebra

/-!
# Comparing sets

Comparisons go by key and chunk, and none depends on the representation of the chunks.
-/

namespace ChunkedSet

def Pairing.all (p : Pairing → Bool) (xs ys : List Entry) : Bool :=
  Pairing.fold (fun ok pair => if ok then p pair else false) xs ys true

namespace IntSet

def isDisjoint (s t : IntSet) : Bool :=
  Pairing.all
    (fun pair =>
      match pair with
      | .both e e' => e.chunk.isDisjoint e'.chunk
      | _ => true)
    s.entries.toList t.entries.toList

def isSubset (s t : IntSet) : Bool :=
  decide (s.entries.size ≤ t.entries.size) &&
    Pairing.all
      (fun pair =>
        match pair with
        | .both e e' => decide (e.size ≤ e'.size) && e.chunk.isSubset e'.chunk
        | .left _ => false
        | .right _ => true)
      s.entries.toList t.entries.toList

def isSuperset (s t : IntSet) : Bool := t.isSubset s

def equals (s t : IntSet) : Bool :=
  s.entries.size == t.entries.size &&
    (s.entries.zip t.entries).all fun (e, e') => e.key == e'.key && e.chunk.equals e'.chunk

end IntSet

end ChunkedSet
