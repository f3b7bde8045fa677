import Mathlib.Algebra.Ring.Parity
import ChunkedSet.Proofs.Combine

/-!
# Operations on many sets, by values

What an operation on many sets means for one value, without reference to the way it is carried
out. One more set acts like the operation on two sets. Unions and symmetric differences may be cut
anywhere, and intersections and differences lose nothing once they are empty.
-/

namespace ChunkedSet

variable {op : Operation} {sets xs ys : List IntSet} {s : IntSet} {v k : Nat} {P : Chunk → Prop}
  {F : Nat → Finset Nat}

namespace Operation

/-- Whether a value is in the result, given the sets that it is in. A difference takes from the
first set what the others have. -/
def HoldsAmong (op : Operation) (v : Nat) (sets : List IntSet) : Prop :=
  match op, sets with
  | union, sets => ∃ s ∈ sets, v ∈ s
  | intersection, sets => sets ≠ [] ∧ ∀ s ∈ sets, v ∈ s
  | difference, [] => False
  | difference, first :: others => v ∈ first ∧ ∀ s ∈ others, v ∉ s
  | symmetricDifference, sets => Odd (sets.countP (v ∈ ·))

instance (v : Nat) : (op : Operation) → (sets : List IntSet) → Decidable (op.HoldsAmong v sets)
  | union, sets => inferInstanceAs (Decidable (∃ s ∈ sets, v ∈ s))
  | intersection, sets => inferInstanceAs (Decidable (sets ≠ [] ∧ ∀ s ∈ sets, v ∈ s))
  | difference, [] => inferInstanceAs (Decidable False)
  | difference, first :: others =>
    inferInstanceAs (Decidable (v ∈ first ∧ ∀ s ∈ others, v ∉ s))
  | symmetricDifference, sets => inferInstanceAs (Decidable (Odd (sets.countP (v ∈ ·))))

theorem HoldsAmong.exists_mem (h : op.HoldsAmong v sets) : ∃ s ∈ sets, v ∈ s := by
  cases op with
  | union => exact h
  | intersection =>
    obtain ⟨s, hs⟩ := List.exists_mem_of_ne_nil sets h.1
    exact ⟨s, hs, h.2 s hs⟩
  | difference =>
    cases sets with
    | nil => cases h
    | cons first others => exact ⟨first, List.mem_cons_self, h.1⟩
  | symmetricDifference =>
    have hodd : sets.countP (v ∈ ·) % 2 = 1 := Nat.odd_iff.1 h
    obtain ⟨s, hs, hv⟩ := List.countP_pos_iff.1 (by omega : 0 < sets.countP (v ∈ ·))
    exact ⟨s, hs, of_decide_eq_true hv⟩

theorem holdsAmong_nil : ¬op.HoldsAmong v [] := fun h => by
  obtain ⟨s, hs, -⟩ := h.exists_mem
  cases hs

theorem holdsAmong_singleton : op.HoldsAmong v [s] ↔ v ∈ s := by
  cases op with
  | union => simp [HoldsAmong]
  | intersection => simp [HoldsAmong]
  | difference => simp [HoldsAmong]
  | symmetricDifference => by_cases hv : v ∈ s <;> simp [HoldsAmong, hv]

theorem holdsAmong_append (hop : op.keepsRight = true) : op.HoldsAmong v (xs ++ ys) ↔
    op.Holds (op.HoldsAmong v xs) (op.HoldsAmong v ys) := by
  cases op with
  | union => simp [HoldsAmong, Holds, or_and_right, exists_or]
  | intersection => cases hop
  | difference => cases hop
  | symmetricDifference =>
    rw [HoldsAmong, List.countP_append, Nat.odd_add, ← Nat.not_odd_iff_even]
    simp only [HoldsAmong, Holds]
    tauto

theorem holdsAmong_concat (h : op.keepsRight = true ∨ sets ≠ []) :
    op.HoldsAmong v (sets ++ [s]) ↔ op.Holds (op.HoldsAmong v sets) (v ∈ s) := by
  rcases h with hop | hne
  · rw [holdsAmong_append hop, holdsAmong_singleton]
  · obtain ⟨first, others, rfl⟩ := List.exists_cons_of_ne_nil hne
    cases op with
    | union => rw [holdsAmong_append rfl, holdsAmong_singleton]
    | intersection => simp [HoldsAmong, Holds, or_imp, forall_and, and_assoc]
    | difference => simp [HoldsAmong, Holds, or_imp, forall_and, and_assoc]
    | symmetricDifference => rw [holdsAmong_append rfl, holdsAmong_singleton]

theorem HoldsAmong.of_append (hop : op.keepsRight = false) (hxs : xs ≠ [])
    (h : op.HoldsAmong v (xs ++ ys)) : op.HoldsAmong v xs := by
  obtain ⟨first, others, rfl⟩ := List.exists_cons_of_ne_nil hxs
  cases op with
  | union => cases hop
  | intersection => exact ⟨hxs, fun s hs => h.2 s (List.mem_append_left ys hs)⟩
  | difference => exact ⟨h.1, fun s hs => h.2 s (List.mem_append_left ys hs)⟩
  | symmetricDifference => cases hop

theorem holdsAmong_intersection_perm (h : xs.Perm ys) :
    intersection.HoldsAmong v xs ↔ intersection.HoldsAmong v ys := by
  simp only [HoldsAmong, h.mem_iff, ne_eq, ← List.length_eq_zero_iff, h.length_eq]

def slotsAmong (op : Operation) (sets : List IntSet) (key : Nat) : Finset Nat :=
  (Finset.range chunkSize).filter fun p => op.HoldsAmong (valueAt key p) sets

theorem mem_slotsAmong {p : Nat} :
    p ∈ op.slotsAmong sets k ↔ p < chunkSize ∧ op.HoldsAmong (valueAt k p) sets := by
  rw [slotsAmong, Finset.mem_filter, Finset.mem_range]

theorem slotsAmong_congr (h : ∀ v, op.HoldsAmong v xs ↔ op.HoldsAmong v ys) :
    op.slotsAmong xs = op.slotsAmong ys := by
  funext k
  ext p
  rw [mem_slotsAmong, mem_slotsAmong, h]

theorem slotsAmong_nil (op : Operation) : op.slotsAmong [] = fun _ => ∅ := by
  funext k
  exact Finset.filter_eq_empty_iff.2 fun p _ => holdsAmong_nil

theorem slotsAmong_singleton (op : Operation) (s : IntSet) : op.slotsAmong [s] = s.slots := by
  funext k
  exact Finset.filter_congr fun p _ => holdsAmong_singleton

theorem and_holds {p q r : Prop} : p ∧ op.Holds q r ↔ op.Holds (p ∧ q) (p ∧ r) := by
  cases op <;> simp only [Holds] <;> tauto

theorem slotsAmong_append (hop : op.keepsRight = true) :
    op.slotsAmong (xs ++ ys) = fun k => op.onSets (op.slotsAmong xs k) (op.slotsAmong ys k) := by
  funext k
  ext p
  rw [mem_slotsAmong, mem_onSets, mem_slotsAmong, mem_slotsAmong, holdsAmong_append hop, and_holds]

theorem slotsAmong_concat (h : op.keepsRight = true ∨ sets ≠ []) :
    op.slotsAmong (sets ++ [s]) = fun k => op.onSets (op.slotsAmong sets k) (s.slots k) := by
  funext k
  ext p
  rw [mem_slotsAmong, mem_onSets, ← slotsAmong_singleton op s, mem_slotsAmong, mem_slotsAmong,
    holdsAmong_concat h, and_holds, holdsAmong_singleton]

/-- Nothing comes back into an empty intersection or difference. -/
theorem slotsAmong_append_eq_empty (hop : op.keepsRight = false) (hxs : xs ≠ [])
    (h : op.slotsAmong xs k = ∅) : op.slotsAmong (xs ++ ys) k = ∅ := by
  rw [slotsAmong, Finset.filter_eq_empty_iff] at h ⊢
  exact fun p hp hheld => h hp (hheld.of_append hop hxs)

end Operation

namespace IntSet

theorem Denotes.slots (h : s.Denotes P F) : s.Denotes P s.slots :=
  denotes_slots h.entries.1 h.entries.2

theorem Denotes.mem_iff_holdsAmong (h : s.Denotes P (op.slotsAmong sets))
    (hsets : ∀ t ∈ sets, t.Valid) : v ∈ s ↔ op.HoldsAmong v sets := by
  by_cases hv : v < domainSize
  · rw [h.mem hv, Operation.mem_slotsAmong, valueAt_keyOf, and_iff_right (positionOf_lt v)]
  · refine iff_of_false (fun hmem => hv (h.lt_domainSize hmem)) fun hheld => ?_
    obtain ⟨t, ht, hmem⟩ := hheld.exists_mem
    exact hv ((hsets t ht).lt_domainSize hmem)

end IntSet

end ChunkedSet
