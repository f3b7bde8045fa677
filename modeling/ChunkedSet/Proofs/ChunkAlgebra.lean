import ChunkedSet.IntSet.Valid
import ChunkedSet.Proofs.Chunk

/-!
# Set operations on chunks

For each pair of representations the result denotes the combination of the denoted sets.
Whose storage is taken over makes no difference to that.
-/

namespace ChunkedSet

def Operation.onSets : Operation → Finset Nat → Finset Nat → Finset Nat
  | union, S, T => S ∪ T
  | intersection, S, T => S ∩ T
  | difference, S, T => S \ T
  | symmetricDifference, S, T => symmDiff S T

theorem Operation.mem_onSets (op : Operation) {S T : Finset Nat} {p : Nat} :
    p ∈ op.onSets S T ↔ op.Holds (p ∈ S) (p ∈ T) := by
  cases op with
  | union => exact Finset.mem_union
  | intersection => exact Finset.mem_inter
  | difference => exact Finset.mem_sdiff
  | symmetricDifference =>
    rw [onSets, Finset.mem_symmDiff, Holds]
    exact or_congr_right and_comm

namespace Chunk

variable {c d : Chunk} {S T : Finset Nat}

theorem unionOnto_denotes (hc : c.Denotes S) (hd : d.Denotes T) :
    (c.unionOnto d).Denotes (S ∪ T) := by
  cases c with
  | array a =>
    cases d with
    | array b =>
      rw [unionOnto]
      split
      · exact SortedArray.union_denotes hc hd
      · exact Block.insertAll_denotes (Block.ofSorted_denotes hc) hd
    | block b =>
      rw [Finset.union_comm]
      exact Block.insertAll_denotes hd hc
    | runs m =>
      rw [Finset.union_comm]
      exact RunList.union_denotes hd (RunList.ofSorted_denotes hc)
  | block b =>
    cases d with
    | array a => exact Block.insertAll_denotes hc hd
    | block b' => exact Block.union_denotes hc hd
    | runs m => exact Block.insertRuns_denotes hc hd
  | runs l =>
    cases d with
    | array a => exact RunList.union_denotes hc (RunList.ofSorted_denotes hd)
    | block b =>
      rw [Finset.union_comm]
      exact Block.insertRuns_denotes hd hc
    | runs m => exact RunList.union_denotes hc hd

theorem mem_filter_contains {a : SortedArray} {b : Block} (ha : a.Denotes S) (hb : b.Denotes T) :
    (a.filter b.contains).Denotes (S ∩ T) := by
  have hden := SortedArray.filter_denotes ha b.contains
  have hset : S.filter (b.contains · = true) = S ∩ T := by
    ext p
    rw [Finset.mem_filter, Finset.mem_inter, Block.contains, hb.contains, decide_eq_true_eq]
  rwa [hset] at hden

theorem mem_filter_not_contains {a : SortedArray} {b : Block} (ha : a.Denotes S)
    (hb : b.Denotes T) : (a.filter fun p => !b.contains p).Denotes (S \ T) := by
  have hden := SortedArray.filter_denotes ha fun p => !b.contains p
  have hset : S.filter (fun p => (!b.contains p) = true) = S \ T := by
    ext p
    rw [Finset.mem_filter, Finset.mem_sdiff, Block.contains, hb.contains, Bool.not_eq_true',
      decide_eq_false_iff_not]
  rwa [hset] at hden

theorem intersectionOnto_denotes (hc : c.Denotes S) (hd : d.Denotes T) :
    (c.intersectionOnto d).Denotes (S ∩ T) := by
  cases c with
  | array a =>
    cases d with
    | array b => exact SortedArray.intersection_denotes hc hd
    | block b => exact mem_filter_contains hc hd
    | runs m => exact SortedArray.retainRuns_denotes hc hd
  | block b =>
    cases d with
    | array a =>
      rw [Finset.inter_comm]
      exact mem_filter_contains hd hc
    | block b' => exact Block.intersection_denotes hc hd
    | runs m => exact Block.retainRuns_denotes hc hd
  | runs l =>
    cases d with
    | array a =>
      rw [Finset.inter_comm]
      exact SortedArray.retainRuns_denotes hd hc
    | block b =>
      rw [intersectionOnto]
      split
      · exact mem_filter_contains (RunList.toSorted_denotes hc) hd
      · rw [Finset.inter_comm]
        exact Block.retainRuns_denotes hd hc
    | runs m => exact RunList.intersection_denotes hc hd

theorem differenceOnto_denotes (hc : c.Denotes S) (hd : d.Denotes T) :
    (c.differenceOnto d).Denotes (S \ T) := by
  cases c with
  | array a =>
    cases d with
    | array b => exact SortedArray.difference_denotes hc hd
    | block b => exact mem_filter_not_contains hc hd
    | runs m => exact SortedArray.eraseRuns_denotes hc hd
  | block b =>
    cases d with
    | array a => exact Block.eraseAll_denotes hc hd
    | block b' => exact Block.difference_denotes hc hd
    | runs m => exact Block.eraseRuns_denotes hc hd
  | runs l =>
    cases d with
    | array a => exact RunList.difference_denotes hc (RunList.ofSorted_denotes hd)
    | block b =>
      rw [differenceOnto]
      split
      · exact mem_filter_not_contains (RunList.toSorted_denotes hc) hd
      · exact Block.difference_denotes (Block.toBlock_denotes hc) hd
    | runs m => exact RunList.difference_denotes hc hd

theorem symmetricDifferenceOnto_denotes (hc : c.Denotes S) (hd : d.Denotes T) :
    (c.symmetricDifferenceOnto d).Denotes (symmDiff S T) := by
  cases c with
  | array a =>
    cases d with
    | array b => exact SortedArray.symmetricDifference_denotes hc hd
    | block b =>
      rw [symmDiff_comm]
      exact Block.toggleAll_denotes hd hc
    | runs m =>
      rw [symmDiff_comm]
      exact RunList.symmetricDifference_denotes hd (RunList.ofSorted_denotes hc)
  | block b =>
    cases d with
    | array a => exact Block.toggleAll_denotes hc hd
    | block b' => exact Block.symmetricDifference_denotes hc hd
    | runs m => exact Block.flipRuns_denotes hc hd
  | runs l =>
    cases d with
    | array a => exact RunList.symmetricDifference_denotes hc (RunList.ofSorted_denotes hd)
    | block b =>
      rw [symmDiff_comm]
      exact Block.flipRuns_denotes hd hc
    | runs m => exact RunList.symmetricDifference_denotes hc hd

end Chunk

namespace Operation

variable {c d : Chunk} {S T : Finset Nat}

theorem onSets_comm {op : Operation} (hop : op ≠ .difference) (S T : Finset Nat) :
    op.onSets S T = op.onSets T S := by
  cases op with
  | union => exact Finset.union_comm S T
  | intersection => exact Finset.inter_comm S T
  | difference => exact absurd rfl hop
  | symmetricDifference => exact symmDiff_comm S T

theorem ontoLeft_denotes (op : Operation) (hc : c.Denotes S) (hd : d.Denotes T) :
    (op.ontoLeft c d).Denotes (op.onSets S T) := by
  cases op with
  | union => exact Chunk.unionOnto_denotes hc hd
  | intersection => exact Chunk.intersectionOnto_denotes hc hd
  | difference => exact Chunk.differenceOnto_denotes hc hd
  | symmetricDifference => exact Chunk.symmetricDifferenceOnto_denotes hc hd

/-- Whether a chunk is the result in the storage of either operand: only an operation that does
not care for the order of its operands may take the right one. -/
def Either (op : Operation) (c d e : Chunk) : Prop :=
  e = op.ontoLeft c d ∨ op ≠ .difference ∧ e = op.ontoLeft d c

theorem denotes_of_either {op : Operation} {e : Chunk} (hc : c.Denotes S) (hd : d.Denotes T)
    (he : op.Either c d e) : e.Denotes (op.onSets S T) := by
  rcases he with he | ⟨hop, he⟩
  · rw [he]
    exact ontoLeft_denotes op hc hd
  · rw [he, onSets_comm hop]
    exact ontoLeft_denotes op hd hc

theorem ontoLeft_either (op : Operation) (c d : Chunk) : op.Either c d (op.ontoLeft c d) :=
  Or.inl rfl

theorem onChunks_either (op : Operation) (c d : Chunk) : op.Either c d (op.onChunks c d) := by
  cases op with
  | union =>
    cases c <;> cases d <;> simp [Either, onChunks, ontoLeft, Chunk.union, Chunk.unionOnto]
  | intersection =>
    cases c <;> cases d <;>
      simp [Either, onChunks, ontoLeft, Chunk.intersection, Chunk.intersectionOnto]
  | difference =>
    cases c <;> cases d <;>
      simp [Either, onChunks, ontoLeft, Chunk.difference, Chunk.differenceOnto]
  | symmetricDifference =>
    cases c <;> cases d <;>
      simp [Either, onChunks, ontoLeft, Chunk.symmetricDifference, Chunk.symmetricDifferenceOnto]

theorem taking_either (op : Operation) (c d : Chunk) : op.Either c d (op.taking c d) := by
  cases op with
  | union =>
    rw [taking, Chunk.unionTaking]
    split
    · exact Or.inr ⟨by decide, rfl⟩
    · exact Or.inl rfl
  | intersection =>
    rw [taking, Chunk.intersectionTaking]
    split
    · exact Or.inr ⟨by decide, rfl⟩
    · exact Or.inl rfl
  | difference => exact Or.inl rfl
  | symmetricDifference =>
    rw [taking, Chunk.symmetricDifferenceTaking]
    split
    · exact Or.inr ⟨by decide, rfl⟩
    · exact Or.inl rfl

end Operation

end ChunkedSet
