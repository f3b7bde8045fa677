import Mathlib.Order.Interval.Finset.Nat

/-!
# Least and greatest numbers

What a search for the first or the last number with a property returns.
-/

namespace ChunkedSet

/-- The least number with the property, or none if there is none. -/
def Least (P : Nat → Prop) : Option Nat → Prop
  | some p => P p ∧ ∀ q, P q → p ≤ q
  | none => ∀ q, ¬P q

def Greatest (P : Nat → Prop) : Option Nat → Prop
  | some p => P p ∧ ∀ q, P q → q ≤ p
  | none => ∀ q, ¬P q

theorem Least.congr {P Q : Nat → Prop} {o : Option Nat} (h : Least P o) (hPQ : ∀ q, P q ↔ Q q) :
    Least Q o := by
  have hfun : P = Q := funext fun q => propext (hPQ q)
  rwa [← hfun]

theorem Greatest.congr {P Q : Nat → Prop} {o : Option Nat} (h : Greatest P o)
    (hPQ : ∀ q, P q ↔ Q q) : Greatest Q o := by
  have hfun : P = Q := funext fun q => propext (hPQ q)
  rwa [← hfun]

theorem Least.unique {P : Nat → Prop} {o o' : Option Nat} (h : Least P o) (h' : Least P o') :
    o = o' := by
  cases o with
  | none =>
    cases o' with
    | none => rfl
    | some p => exact absurd h'.1 (h p)
  | some p =>
    cases o' with
    | none => exact absurd h.1 (h' p)
    | some q => rw [Nat.le_antisymm (h.2 q h'.1) (h'.2 p h.1)]

theorem Greatest.unique {P : Nat → Prop} {o o' : Option Nat} (h : Greatest P o)
    (h' : Greatest P o') : o = o' := by
  cases o with
  | none =>
    cases o' with
    | none => rfl
    | some p => exact absurd h'.1 (h p)
  | some p =>
    cases o' with
    | none => exact absurd h.1 (h' p)
    | some q => rw [Nat.le_antisymm (h'.2 p h.1) (h.2 q h'.1)]

/-- The elements of a set whose predecessor is not in it: the starts of its maximal runs. -/
def starts (S : Finset Nat) : Finset Nat := S.filter fun p => p = 0 ∨ p - 1 ∉ S

theorem mem_starts {S : Finset Nat} {p : Nat} : p ∈ starts S ↔ p ∈ S ∧ (p = 0 ∨ p - 1 ∉ S) :=
  Finset.mem_filter

/-! A number put below a set starts a run, and takes over the first run of the set if it
touches it. -/

section

variable {S : Finset Nat} {y z : Nat} (hleast : ∀ p ∈ S, z ≤ p)

include hleast

theorem starts_insert_apart (hyz : y + 1 < z) :
    starts (insert y S) = insert y (starts S) := by
  ext p
  have hp := hleast p
  have hpred := hleast (p - 1)
  rw [Finset.mem_insert, mem_starts, mem_starts, Finset.mem_insert, Finset.mem_insert]
  grind

theorem starts_insert_adjacent (hyz : y + 1 = z) :
    starts (insert y S) = insert y ((starts S).erase z) := by
  ext p
  have hp := hleast p
  have hpred := hleast (p - 1)
  rw [Finset.mem_insert, Finset.mem_erase, mem_starts, mem_starts, Finset.mem_insert,
    Finset.mem_insert]
  grind

theorem card_starts_insert (hz : z ∈ S) (hyz : y < z) :
    (starts (insert y S)).card = (starts S).card + if y + 1 = z then 0 else 1 := by
  have hy : y ∉ starts S := fun hin => Nat.not_lt.2 (hleast y (mem_starts.1 hin).1) hyz
  split
  · rename_i hnext
    have hstart : z ∈ starts S := by
      rw [mem_starts]
      refine ⟨hz, Or.inr fun hpred => ?_⟩
      have hle := hleast _ hpred
      omega
    have hpos : 0 < (starts S).card := Finset.card_pos.2 ⟨z, hstart⟩
    rw [starts_insert_adjacent hleast hnext, Finset.card_insert_of_notMem fun hin =>
      hy (Finset.mem_of_mem_erase hin), Finset.card_erase_of_mem hstart]
    omega
  · rw [starts_insert_apart hleast (by omega), Finset.card_insert_of_notMem hy]

end

end ChunkedSet
