import ChunkedSet.Many.Basic

/-!
# Aggregation by halves

A long list of sets is split in half, both halves are reduced, and the two results are merged.
How the halves are run is left to a strategy, which has no influence on the result.
-/

namespace ChunkedSet

/-- Runs two computations and returns both results. -/
structure Strategy where
  join : (Unit → IntSet) → (Unit → IntSet) → IntSet × IntSet

namespace Strategy

def leftFirst : Strategy := ⟨fun a b => let left := a (); (left, b ())⟩

def rightFirst : Strategy := ⟨fun a b => let right := b (); (a (), right)⟩

end Strategy

namespace Aggregate

/-- Lists of no more sets than this are reduced in one go. -/
def leafSize : Nat := 8

def reduce (strategy : Strategy) (leaf : List IntSet → IntSet) (merge : IntSet → IntSet → IntSet)
    (sets : List IntSet) : IntSet :=
  if h : sets.length ≤ leafSize then leaf sets
  else
    let half := sets.length / 2
    have : half < sets.length ∧ 0 < half := by
      simp only [leafSize] at h
      omega
    let (left, right) := strategy.join
      (fun _ => reduce strategy leaf merge (sets.take half))
      (fun _ => reduce strategy leaf merge (sets.drop half))
    merge left right
termination_by sets.length
decreasing_by
  · simp only [List.length_take]
    omega
  · simp only [List.length_drop]
    omega

def union (strategy : Strategy) (sets : List IntSet) : IntSet :=
  reduce strategy (fun leaf => (LazyUnion.empty.addAll leaf).repair)
    (IntSet.combine .union .both) sets

def symmetricDifference (strategy : Strategy) (sets : List IntSet) : IntSet :=
  reduce strategy (Many.applyAll .symmetricDifference .kept)
    (IntSet.combine .symmetricDifference .both) sets

end Aggregate

end ChunkedSet
