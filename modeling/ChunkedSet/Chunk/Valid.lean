import ChunkedSet.Chunk.Basic

/-!
# Valid chunks

What each representation promises, and when a position is in it. A valid chunk is well formed if
its size suits its representation.
-/

namespace ChunkedSet

namespace SortedArray

instance : Membership Nat SortedArray := ⟨fun a p => p ∈ a.toList⟩

def Valid (a : SortedArray) : Prop :=
  a.toList.Pairwise (· < ·) ∧ ∀ p ∈ a.toList, p < chunkSize

theorem mem_def (a : SortedArray) (p : Nat) : p ∈ a ↔ p ∈ a.toList := Iff.rfl

instance (a : SortedArray) (p : Nat) : Decidable (p ∈ a) :=
  inferInstanceAs (Decidable (p ∈ a.toList))

instance (a : SortedArray) : Decidable a.Valid :=
  inferInstanceAs (Decidable (_ ∧ _))

end SortedArray

namespace Block

instance : Membership Nat Block := ⟨fun b p => p < chunkSize ∧ b.words.contains p = true⟩

def Valid (b : Block) : Prop := b.size = b.words.popcount

theorem mem_def (b : Block) (p : Nat) : p ∈ b ↔ p < chunkSize ∧ b.words.contains p = true :=
  Iff.rfl

instance (b : Block) (p : Nat) : Decidable (p ∈ b) :=
  inferInstanceAs (Decidable (_ ∧ _))

instance (b : Block) : Decidable b.Valid :=
  inferInstanceAs (Decidable (_ = _))

end Block

namespace Run

instance : Membership Nat Run := ⟨fun r p => r.first ≤ p ∧ p ≤ r.last⟩

theorem mem_def (r : Run) (p : Nat) : p ∈ r ↔ r.first ≤ p ∧ p ≤ r.last := Iff.rfl

instance (r : Run) (p : Nat) : Decidable (p ∈ r) :=
  inferInstanceAs (Decidable (_ ∧ _))

end Run

namespace RunList

instance : Membership Nat RunList := ⟨fun l p => ∃ r ∈ l.toList, p ∈ r⟩

/-- The runs are in order and no two of them touch. -/
def Apart (runs : List Run) : Prop := runs.Pairwise fun r s => r.last + 1 < s.first

def Valid (l : RunList) : Prop :=
  Apart l.toList ∧ ∀ r ∈ l.toList, r.first ≤ r.last ∧ r.last < chunkSize

theorem mem_def (l : RunList) (p : Nat) : p ∈ l ↔ ∃ r ∈ l.toList, p ∈ r := Iff.rfl

instance (l : RunList) (p : Nat) : Decidable (p ∈ l) :=
  inferInstanceAs (Decidable (∃ r ∈ l.toList, p ∈ r))

instance (runs : List Run) : Decidable (Apart runs) :=
  inferInstanceAs (Decidable (runs.Pairwise _))

instance (l : RunList) : Decidable l.Valid :=
  inferInstanceAs (Decidable (_ ∧ _))

end RunList

namespace Chunk

def Mem : Chunk → Nat → Prop
  | array a, p => p ∈ a
  | block b, p => p ∈ b
  | runs l, p => p ∈ l

instance : Membership Nat Chunk := ⟨Mem⟩

def Valid : Chunk → Prop
  | array a => a.Valid
  | block b => b.Valid
  | runs l => l.Valid

/-- Arrays are short and blocks are long. -/
def WellFormed : Chunk → Prop
  | array a => a.Valid ∧ a.size ≤ arrayLimit
  | block b => b.Valid ∧ arrayLimit < b.size
  | runs l => l.Valid

instance (c : Chunk) (p : Nat) : Decidable (p ∈ c) :=
  match c with
  | array a => inferInstanceAs (Decidable (p ∈ a))
  | block b => inferInstanceAs (Decidable (p ∈ b))
  | runs l => inferInstanceAs (Decidable (p ∈ l))

instance : (c : Chunk) → Decidable c.Valid
  | array a => inferInstanceAs (Decidable a.Valid)
  | block b => inferInstanceAs (Decidable b.Valid)
  | runs l => inferInstanceAs (Decidable l.Valid)

instance : (c : Chunk) → Decidable c.WellFormed
  | array _ => inferInstanceAs (Decidable (_ ∧ _))
  | block _ => inferInstanceAs (Decidable (_ ∧ _))
  | runs l => inferInstanceAs (Decidable l.Valid)

theorem WellFormed.valid {c : Chunk} (h : c.WellFormed) : c.Valid := by
  cases c with
  | array a => exact h.1
  | block b => exact h.1
  | runs l => exact h

end Chunk

end ChunkedSet
