import ChunkedSet.Chunk.Valid
import ChunkedSet.IntSet.Algebra

/-!
# Valid sets

A set is valid if its keys increase strictly and its chunks are valid and not empty. It is well
formed if the chunks are well formed too. Membership and the meaning of the four operations are
stated here without reference to the representations.
-/

namespace ChunkedSet

namespace IntSet

instance : Membership Nat IntSet :=
  ⟨fun s v => ∃ e ∈ s.entries.toList, e.key = keyOf v ∧ positionOf v ∈ e.chunk⟩

def keys (s : IntSet) : List Nat := s.entries.toList.map Entry.key

def Valid (s : IntSet) : Prop :=
  s.keys.Pairwise (· < ·) ∧
    ∀ e ∈ s.entries.toList, e.key < chunkSize ∧ e.chunk.Valid ∧ e.isEmpty = false

def WellFormed (s : IntSet) : Prop :=
  s.keys.Pairwise (· < ·) ∧
    ∀ e ∈ s.entries.toList, e.key < chunkSize ∧ e.chunk.WellFormed ∧ e.isEmpty = false

theorem mem_def (s : IntSet) (v : Nat) :
    v ∈ s ↔ ∃ e ∈ s.entries.toList, e.key = keyOf v ∧ positionOf v ∈ e.chunk :=
  Iff.rfl

instance (s : IntSet) (v : Nat) : Decidable (v ∈ s) :=
  inferInstanceAs (Decidable (∃ e ∈ s.entries.toList, e.key = keyOf v ∧ positionOf v ∈ e.chunk))

instance (s : IntSet) : Decidable s.Valid :=
  inferInstanceAs (Decidable (_ ∧ _))

instance (s : IntSet) : Decidable s.WellFormed :=
  inferInstanceAs (Decidable (_ ∧ _))

theorem WellFormed.valid {s : IntSet} (h : s.WellFormed) : s.Valid :=
  ⟨h.1, fun e he => ⟨(h.2 e he).1, (h.2 e he).2.1.valid, (h.2 e he).2.2⟩⟩

theorem empty_wellFormed : empty.WellFormed := by decide

end IntSet

def Operation.Holds : Operation → Prop → Prop → Prop
  | union, p, q => p ∨ q
  | intersection, p, q => p ∧ q
  | difference, p, q => p ∧ ¬q
  | symmetricDifference, p, q => p ∧ ¬q ∨ ¬p ∧ q

namespace Bound

def Below : Bound → Nat → Prop
  | included lo, v => lo ≤ v
  | excluded lo, v => lo < v
  | unbounded, _ => True

def Above : Bound → Nat → Prop
  | included hi, v => v ≤ hi
  | excluded hi, v => v < hi
  | unbounded, _ => True

instance (v : Nat) : (b : Bound) → Decidable (b.Below v)
  | included lo => inferInstanceAs (Decidable (lo ≤ v))
  | excluded lo => inferInstanceAs (Decidable (lo < v))
  | unbounded => .isTrue trivial

instance (v : Nat) : (b : Bound) → Decidable (b.Above v)
  | included hi => inferInstanceAs (Decidable (v ≤ hi))
  | excluded hi => inferInstanceAs (Decidable (v < hi))
  | unbounded => .isTrue trivial

def InDomain (b : Bound) : Prop := ∀ v ∈ b.value?, v < domainSize

end Bound

namespace Bounds

instance : Membership Nat Bounds :=
  ⟨fun b v => v < domainSize ∧ b.lower.Below v ∧ b.upper.Above v⟩

def InDomain (b : Bounds) : Prop := b.lower.InDomain ∧ b.upper.InDomain

instance (b : Bounds) (v : Nat) : Decidable (v ∈ b) :=
  inferInstanceAs (Decidable (v < domainSize ∧ b.lower.Below v ∧ b.upper.Above v))

end Bounds

end ChunkedSet
