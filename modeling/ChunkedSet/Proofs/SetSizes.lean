import Mathlib.Algebra.BigOperators.Ring.Finset
import Mathlib.Algebra.Order.BigOperators.Group.Finset
import ChunkedSet.Proofs.IntersectionSize
import ChunkedSet.Proofs.RangeChanges

/-!
# Sizes of combinations

The size of a set is summed up over the keys, and so is that of an intersection, which a merge
counts without building it. The sizes of the other combinations are differences of these.
-/

namespace ChunkedSet

open Finset

variable {P : Chunk → Prop} {F G : Nat → Finset Nat} {s t : IntSet}

theorem card_symmDiff_add (S T : Finset Nat) : #(symmDiff S T) + 2 * #(S ∩ T) = #S + #T := by
  have hdisjoint : Disjoint (S \ T) (T \ S) := disjoint_sdiff_sdiff
  have hleft := card_sdiff_add_card_inter S T
  have hright := card_sdiff_add_card_inter T S
  have hsplit : #(symmDiff S T) = #(S \ T) + #(T \ S) := card_union_of_disjoint hdisjoint
  rw [inter_comm] at hright
  omega

namespace IntSet

theorem Denotes.size (h : s.Denotes P F) : s.size = ∑ k ∈ range chunkSize, #(F k) := by
  have hentries : s.entries.toList.map Entry.size = s.entries.toList.map fun e => #(F e.key) := by
    apply List.map_congr_left
    intro e he
    exact (h.element e he).2.2.1.size
  have hsum := h.sum_eq (g := fun k => #(F k)) fun k hk => by rw [hk, card_empty]
  rw [IntSet.size, ← Array.foldl_toList, Words.foldl_add_eq_sum, Nat.zero_add, hentries, hsum,
    Nat.Ico_zero_eq_range]

theorem Valid.size_eq_card (h : s.Valid) : s.size = #{v ∈ range domainSize | v ∈ s} := by
  rw [h.denotes.size]
  refine (card_eq_sum fun k _ q => ?_).symm
  rw [slots, mem_filter, mem_range]

theorem Denotes.size_le (h : s.Denotes P F) : s.size ≤ domainSize := by
  have hle : ∀ k ∈ range chunkSize, #(F k) ≤ chunkSize := by
    intro k hk
    rw [← h.slots_eq (mem_range.1 hk)]
    calc
      #(s.slots k) ≤ #(range chunkSize) := card_filter_le _ _
      _ = chunkSize := card_range chunkSize
  have hsum := sum_le_card_nsmul _ _ _ hle
  rw [card_range, ← h.size] at hsum
  exact hsum

theorem intersectionSize_eq_sum (hs : s.Denotes P F) (ht : t.Denotes P G) :
    s.intersectionSize t = ∑ k ∈ range chunkSize, #(F k ∩ G k) := by
  refine Pairing.fold_keys (I := fun k n => n = ∑ i ∈ range k, #(F i ∩ G i)) ?_ ?_ ?_ ?_
    (Nat.zero_le _) hs ht (sum_range_zero _).symm
  · intro k n _ hF _ hn
    rw [sum_range_succ, ← hn, hF, empty_inter, card_empty, Nat.add_zero]
  · intro n x _ _ hG hn
    rw [sum_range_succ, ← hn, hG, inter_empty, card_empty, Nat.add_zero]
  · intro n y _ hF _ hn
    rw [sum_range_succ, ← hn, hF, empty_inter, card_empty, Nat.add_zero]
  · intro n x y _ _ hx hy hn
    rw [sum_range_succ, ← hn]
    exact congrArg (n + ·) (Chunk.intersectionSize_eq_card hx.1 hy.1)

theorem size_combine (op : Operation) (handover : Handover) (hs : s.Valid) (ht : t.Valid) :
    (combine op handover s t).size =
      ∑ k ∈ range chunkSize, #(op.onSets (s.slots k) (t.slots k)) :=
  (combine_denotes Chunk.grade_valid op handover hs.denotes ht.denotes).size

variable (hs : s.Valid) (ht : t.Valid)

include hs ht

theorem size_intersection (handover : Handover) :
    (combine .intersection handover s t).size = s.intersectionSize t := by
  rw [size_combine _ _ hs ht, intersectionSize_eq_sum hs.denotes ht.denotes]
  rfl

theorem size_union_add (handover : Handover) :
    (combine .union handover s t).size + s.intersectionSize t = s.size + t.size := by
  rw [size_combine _ _ hs ht, intersectionSize_eq_sum hs.denotes ht.denotes, hs.denotes.size,
    ht.denotes.size, ← sum_add_distrib, ← sum_add_distrib]
  exact sum_congr rfl fun k _ => card_union_add_card_inter _ _

theorem size_difference_add (handover : Handover) :
    (combine .difference handover s t).size + s.intersectionSize t = s.size := by
  rw [size_combine _ _ hs ht, intersectionSize_eq_sum hs.denotes ht.denotes, hs.denotes.size,
    ← sum_add_distrib]
  exact sum_congr rfl fun k _ => card_sdiff_add_card_inter _ _

theorem size_symmetricDifference_add (handover : Handover) :
    (combine .symmetricDifference handover s t).size + 2 * s.intersectionSize t =
      s.size + t.size := by
  rw [size_combine _ _ hs ht, intersectionSize_eq_sum hs.denotes ht.denotes, hs.denotes.size,
    ht.denotes.size, mul_sum, ← sum_add_distrib, ← sum_add_distrib]
  exact sum_congr rfl fun k _ => card_symmDiff_add _ _

/-- The counts are the sizes of what the operations build, in whatever way these are spelled.
No subtraction goes below zero, and the sizes may be those of the whole domain. -/
theorem sizes_correct (handover : Handover) :
    s.intersectionSize t = (combine .intersection handover s t).size ∧
      s.unionSize t = (combine .union handover s t).size ∧
      s.differenceSize t = (combine .difference handover s t).size ∧
      s.symmetricDifferenceSize t = (combine .symmetricDifference handover s t).size ∧
      s.intersectionSize t ≤ s.size + t.size ∧ s.intersectionSize t ≤ s.size ∧
      2 * s.intersectionSize t ≤ s.size + t.size ∧ s.size ≤ domainSize ∧ t.size ≤ domainSize := by
  have hintersection := size_intersection hs ht handover
  have hunion := size_union_add hs ht handover
  have hdifference := size_difference_add hs ht handover
  have hsymmetric := size_symmetricDifference_add hs ht handover
  refine ⟨hintersection.symm, ?_, ?_, ?_, ?_, ?_, ?_, hs.denotes.size_le, ht.denotes.size_le⟩
  · rw [unionSize]
    omega
  · rw [differenceSize]
    omega
  · rw [symmetricDifferenceSize]
    omega
  · omega
  · omega
  · omega

omit hs ht

theorem sizes_correct_mixed :
    let b : Chunk := (Chunk.runs ⟨#[⟨0, 5000⟩]⟩).toBlock
    let s : IntSet :=
      ⟨#[⟨0, .array ⟨#[1, 2, 65535]⟩⟩, ⟨7, .runs ⟨#[⟨0, 9⟩, ⟨12, 65535⟩]⟩⟩, ⟨9, b⟩]⟩
    let t : IntSet :=
      ⟨#[⟨0, .runs ⟨#[⟨2, 4⟩]⟩⟩, ⟨7, .array ⟨#[5, 11]⟩⟩, ⟨9, .array ⟨#[5, 6000]⟩⟩]⟩
    s.Valid ∧ t.Valid ∧ s.symmetricDifferenceSize t = 70539 ∧
      s.symmetricDifferenceSize t = (combine .symmetricDifference .both s t).size ∧
      2 * s.intersectionSize t ≤ s.size + t.size := by
  intro b s t
  have hcount : s.symmetricDifferenceSize t = 70539 := by decide +kernel
  have hruns : (Chunk.runs ⟨#[⟨0, 5000⟩]⟩).Valid := by decide
  have hb : b.Valid ∧ b.isEmpty = false := ⟨hruns.toBlock.1, hruns.toBlock.2.1⟩
  have hs : s.Valid := ⟨by decide, List.forall_mem_cons.2 ⟨by decide, List.forall_mem_cons.2
    ⟨by decide, List.forall_mem_singleton.2 ⟨by decide, hb⟩⟩⟩⟩
  have ht : t.Valid := by decide
  have h := sizes_correct hs ht .both
  exact ⟨hs, ht, hcount, h.2.2.2.1, h.2.2.2.2.2.2.1⟩

end IntSet

end ChunkedSet
