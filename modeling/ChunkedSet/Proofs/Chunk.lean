import ChunkedSet.Chunk.Update
import ChunkedSet.Proofs.Merge
import ChunkedSet.Proofs.RunAlgebra

/-!
# Conversions and the policy

Conversions keep the denoted set, and a settled chunk fits. A chunk that is valid and fits is
well formed.
-/

namespace ChunkedSet.Chunk

variable {c d : Chunk} {S T : Finset Nat}

theorem toBits_denotes (h : c.Denotes S) : c.toBits.Denotes S := by
  cases c with
  | array a => exact Block.ofSorted_denotes h
  | block b => exact h
  | runs l => exact Block.toBlock_denotes h

theorem toArray_denotes (h : c.Denotes S) : c.toArray.Denotes S := by
  cases c with
  | array a => exact h
  | block b => exact Block.toSorted_denotes h
  | runs l => exact RunList.toSorted_denotes h

theorem toBlock_denotes (h : c.Denotes S) : c.toBlock.Denotes S := toBits_denotes h

theorem toRuns_denotes (h : c.Denotes S) : c.toRuns.Denotes S := by
  cases c with
  | array a => exact RunList.ofSorted_denotes h
  | block b => exact RunList.ofBlock_denotes h
  | runs l => exact h

theorem Denotes.runCount (h : c.Denotes S) : c.runCount = (starts S).card := by
  cases c with
  | array a => exact SortedArray.Denotes.runCount h
  | block b => exact Block.Denotes.runCount h
  | runs l => exact RunList.Denotes.runCount h

theorem Denotes.card_le (h : c.Denotes S) : S.card ≤ chunkSize := by
  have hsub : S ⊆ Finset.range chunkSize := fun p hp => Finset.mem_range.2 (h.lt hp)
  have hcard := Finset.card_le_card hsub
  rwa [Finset.card_range] at hcard

theorem Denotes.valid (h : c.Denotes S) : c.Valid := h.1

theorem Valid.toBlock (h : c.Valid) :
    c.toBlock.Valid ∧ c.toBlock.isEmpty = c.isEmpty ∧ c.toBlock.size = c.size := by
  obtain ⟨S, hS⟩ := h.denotes
  have hden := toBlock_denotes hS
  exact ⟨hden.valid, hden.isEmpty.trans hS.isEmpty.symm, hden.size.trans hS.size.symm⟩

theorem Denotes.toList_eq_sort (h : c.Denotes S) : c.toList = S.sort (· ≤ ·) := by
  cases c with
  | array a => exact SortedArray.Denotes.toList_eq_sort h
  | block b => exact Block.Denotes.positions_eq_sort h
  | runs l => exact (RunList.toList_toSorted l).trans (RunList.Denotes.listed_eq_sort h)

/-! The policy. -/

theorem settlePlain_denotes (h : c.Denotes S) : c.settlePlain.Denotes S := by
  rw [settlePlain]
  split
  · exact toArray_denotes h
  · exact toBlock_denotes h

theorem fits_settlePlain (h : c.Denotes S) : c.settlePlain.fits = true := by
  rw [settlePlain]
  split
  · rename_i hle
    have hsize := (toArray_denotes h).size
    rw [h.size, ← hsize] at hle
    cases c <;> exact decide_eq_true hle
  · rename_i hgt
    have hsize := (toBlock_denotes h).size
    rw [h.size, ← hsize] at hgt
    exact decide_eq_true (Nat.not_le.1 hgt)

theorem settle_denotes (h : c.Denotes S) : c.settle.Denotes S := by
  rw [settle]
  split
  · exact h
  · exact settlePlain_denotes h

theorem fits_settle (h : c.Denotes S) : c.settle.fits = true := by
  rw [settle]
  split
  · rename_i hfits
    exact hfits
  · exact fits_settlePlain h

theorem settle_spec (h : c.Denotes S) : c.settle.Denotes S ∧ c.settle.fits = true :=
  ⟨settle_denotes h, fits_settle h⟩

theorem wellFormed_of_fits (hvalid : c.Valid) (hfits : c.fits = true) : c.WellFormed := by
  cases c with
  | array a => exact ⟨hvalid, of_decide_eq_true hfits⟩
  | block b => exact ⟨hvalid, of_decide_eq_true hfits⟩
  | runs l => exact hvalid

theorem empty_denotes : empty.Denotes ∅ := SortedArray.empty_denotes

theorem full_denotes : full.Denotes (Finset.Icc 0 lastPosition) :=
  RunList.ofRange_denotes (Nat.zero_le _) (Nat.lt_succ_self _)

theorem fits_full : full.fits = true := by decide

theorem ofRange_denotes {lo hi : Nat} (hle : lo ≤ hi) (hhi : hi < chunkSize) :
    (ofRange lo hi).Denotes (Finset.Icc lo hi) := by
  rw [ofRange]
  split
  · exact RunList.ofRange_denotes hle hhi
  · have hden := SortedArray.insertRange_denotes SortedArray.empty_denotes hle hhi
    rw [Finset.empty_union] at hden
    exact hden

theorem fits_ofRange {lo hi : Nat} (hle : lo ≤ hi) (hhi : hi < chunkSize) :
    (ofRange lo hi).fits = true := by
  have hsize := (ofRange_denotes hle hhi).size
  have hcard : (Finset.Icc lo hi).card = hi - lo + 1 := by
    rw [Nat.card_Icc]
    omega
  rw [hcard] at hsize
  rw [ofRange] at hsize ⊢
  split
  · rename_i hshort
    rw [if_pos hshort] at hsize
    have hsize : (RunList.ofRange lo hi).size = hi - lo + 1 := hsize
    rw [← hsize] at hshort
    exact decide_eq_true hshort
  · rename_i hlong
    rw [if_neg hlong] at hsize
    refine decide_eq_true ?_
    have hsize : (SortedArray.empty.insertRange lo hi).1.size = hi - lo + 1 := hsize
    rw [hsize]
    unfold runBytes plainBytes arrayBytes blockBytes at hlong
    unfold arrayLimit
    omega

/-! Changes of representation on request. -/

theorem withoutRuns_denotes (h : c.Denotes S) : c.withoutRuns.1.Denotes S := by
  rw [withoutRuns]
  split
  · exact settlePlain_denotes h
  · exact h

theorem withoutRuns_eq_or_fits (h : c.Denotes S) :
    c.withoutRuns.1 = c ∨ c.withoutRuns.1.fits = true := by
  rw [withoutRuns]
  split
  · exact Or.inr (fits_settlePlain h)
  · exact Or.inl rfl

theorem optimize_denotes (h : c.Denotes S) : c.optimize.1.Denotes S := by
  cases c with
  | array a =>
    rw [optimize]
    split
    · exact toRuns_denotes h
    · exact h
  | block b =>
    rw [optimize]
    split
    · exact toRuns_denotes h
    · exact h
  | runs l =>
    rw [optimize]
    split
    · exact h
    · exact withoutRuns_denotes h

theorem fits_toRuns (h : c.Denotes S) (hc : c.isRuns = false) (hwf : c.WellFormed)
    (hshort : runBytes c.runCount < c.bytes) : c.toRuns.fits = true := by
  have hruns := toRuns_denotes h
  have hcount : c.toRuns.runCount = c.runCount := by rw [hruns.runCount, h.runCount]
  have hsize : c.toRuns.size = c.size := by rw [hruns.size, h.size]
  have hplain : c.bytes ≤ plainBytes c.size := by
    cases c with
    | array a =>
      have hle : a.size ≤ arrayLimit := hwf.2
      unfold arrayLimit at hle
      simp only [bytes, plainBytes, arrayBytes, blockBytes, size]
      omega
    | block b =>
      have hlt : arrayLimit < b.size := hwf.2
      unfold arrayLimit at hlt
      simp only [bytes, plainBytes, arrayBytes, blockBytes, size]
      omega
    | runs l => cases hc
  rw [← hcount] at hshort
  rw [← hsize] at hplain
  cases c with
  | array a => exact decide_eq_true (lt_of_lt_of_le hshort hplain)
  | block b => exact decide_eq_true (lt_of_lt_of_le hshort hplain)
  | runs l => cases hc

theorem optimize_eq_or_fits (h : c.Denotes S) (hwf : c.WellFormed) :
    c.optimize.1 = c ∨ c.optimize.1.fits = true := by
  cases c with
  | array a =>
    rw [optimize]
    split
    · rename_i hshort
      exact Or.inr (fits_toRuns h rfl hwf hshort)
    · exact Or.inl rfl
  | block b =>
    rw [optimize]
    split
    · rename_i hshort
      exact Or.inr (fits_toRuns h rfl hwf hshort)
    · exact Or.inl rfl
  | runs l =>
    rw [optimize]
    split
    · exact Or.inl rfl
    · exact withoutRuns_eq_or_fits h

end ChunkedSet.Chunk
