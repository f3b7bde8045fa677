/-!
# Binary search

`partitionPoint p xs` is the number of leading elements of `xs` that satisfy `p`, for an array
in which those elements come first. The search halves an interval; its fuel is the size of the
array, which no interval exceeds. `partitionPoint_splits` says that the result parts the elements
that satisfy `p` from the others.
-/

namespace ChunkedSet

/-- Searches between `lo` and `hi`; everything below `lo` satisfies `p`, nothing from `hi` on. -/
def partitionPointBetween {α : Type} (p : α → Bool) (xs : Array α) : Nat → Nat → Nat → Nat
  | 0, lo, _ => lo
  | fuel + 1, lo, hi =>
    if lo < hi then
      let mid := (lo + hi) / 2
      match xs[mid]? with
      | some x =>
        if p x then partitionPointBetween p xs fuel (mid + 1) hi
        else partitionPointBetween p xs fuel lo mid
      | none => lo
    else lo

def partitionPoint {α : Type} (p : α → Bool) (xs : Array α) : Nat :=
  partitionPointBetween p xs xs.size 0 xs.size

/-- As `partitionPoint`, for the part of the array from `lo` up to, not including, `hi`. -/
def partitionPointIn {α : Type} (p : α → Bool) (xs : Array α) (lo hi : Nat) : Nat :=
  partitionPointBetween p xs (hi - lo) lo hi

theorem partitionPointBetween_ge {α : Type} (p : α → Bool) (xs : Array α) (fuel lo hi : Nat) :
    lo ≤ partitionPointBetween p xs fuel lo hi := by
  induction fuel generalizing lo hi with
  | zero => simp [partitionPointBetween]
  | succ fuel ih =>
    rw [partitionPointBetween]
    split
    · rename_i h
      simp only
      split
      · split
        · exact Nat.le_trans (by omega) (ih ((lo + hi) / 2 + 1) hi)
        · exact ih lo ((lo + hi) / 2)
      · exact Nat.le_refl lo
    · exact Nat.le_refl lo

theorem partitionPointBetween_le {α : Type} (p : α → Bool) (xs : Array α) (fuel : Nat)
    {lo hi : Nat} (h : lo ≤ hi) : partitionPointBetween p xs fuel lo hi ≤ hi := by
  induction fuel generalizing lo hi with
  | zero => simpa [partitionPointBetween] using h
  | succ fuel ih =>
    rw [partitionPointBetween]
    split
    · simp only
      split
      · split
        · exact ih (by omega)
        · exact Nat.le_trans (ih (by omega)) (by omega)
      · exact h
    · exact h

theorem partitionPoint_le_size {α : Type} (p : α → Bool) (xs : Array α) :
    partitionPoint p xs ≤ xs.size :=
  partitionPointBetween_le p xs xs.size (Nat.zero_le _)

def Leading {α : Type} (p : α → Bool) (xs : Array α) (lo hi : Nat) : Prop :=
  ∀ i j x y, lo ≤ i → i ≤ j → j < hi → xs[i]? = some x → xs[j]? = some y → p y = true → p x = true

theorem Leading.mono {α : Type} {p : α → Bool} {xs : Array α} {lo hi lo' hi' : Nat}
    (h : Leading p xs lo hi) (hlo : lo ≤ lo') (hhi : hi' ≤ hi) : Leading p xs lo' hi' := by
  intro i j x y hi hij hj
  exact h i j x y (Nat.le_trans hlo hi) hij (Nat.lt_of_lt_of_le hj hhi)

theorem partitionPointBetween_splits {α : Type} {p : α → Bool} {xs : Array α} {fuel lo hi : Nat}
    (hs : hi ≤ xs.size) (hf : hi - lo ≤ fuel) (h : Leading p xs lo hi) {i : Nat} {x : α}
    (hx : xs[i]? = some x) :
    (lo ≤ i → i < partitionPointBetween p xs fuel lo hi → p x = true) ∧
      (partitionPointBetween p xs fuel lo hi ≤ i → i < hi → p x = false) := by
  induction fuel generalizing lo hi with
  | zero =>
    simp only [partitionPointBetween]
    omega
  | succ fuel ih =>
    rw [partitionPointBetween]
    by_cases hlt : lo < hi
    · have hy : xs[(lo + hi) / 2]? = some xs[(lo + hi) / 2] := Array.getElem?_eq_getElem (by omega)
      rw [if_pos hlt]
      simp only [hy]
      by_cases hp : p xs[(lo + hi) / 2] = true
      · rw [if_pos hp]
        have hupper : Leading p xs ((lo + hi) / 2 + 1) hi := h.mono (by omega) (by omega)
        have hstep := ih hs (by omega) hupper
        refine ⟨fun hlow hr => ?_, hstep.2⟩
        by_cases hle : i ≤ (lo + hi) / 2
        · exact h i _ x _ hlow hle (by omega) hx hy hp
        · exact hstep.1 (by omega) hr
      · rw [if_neg hp]
        have hlower : Leading p xs lo ((lo + hi) / 2) := h.mono (by omega) (by omega)
        have hstep := ih (by omega) (by omega) hlower
        refine ⟨hstep.1, fun hr hhigh => ?_⟩
        by_cases hlt' : i < (lo + hi) / 2
        · exact hstep.2 hr hlt'
        · refine Bool.eq_false_iff.2 fun hc => hp ?_
          exact h _ i _ x (by omega) (by omega) hhigh hy hx hc
    · rw [if_neg hlt]
      omega

theorem partitionPoint_splits {α : Type} {p : α → Bool} {xs : Array α}
    (h : Leading p xs 0 xs.size) {i : Nat} {x : α} (hx : xs[i]? = some x) :
    p x = decide (i < partitionPoint p xs) := by
  have hi : i < xs.size := (Array.getElem?_eq_some_iff.1 hx).1
  have hsplit := partitionPointBetween_splits (Nat.le_refl xs.size) (Nat.le_refl _) h hx
  by_cases hlt : i < partitionPoint p xs
  · rw [decide_eq_true hlt]
    exact hsplit.1 (Nat.zero_le i) hlt
  · rw [decide_eq_false hlt]
    exact hsplit.2 (Nat.not_lt.1 hlt) hi

end ChunkedSet
