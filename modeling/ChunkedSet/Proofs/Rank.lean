import ChunkedSet.Proofs.ChunkUpdate

/-!
# Ranks

The number of positions up to a given one. A sorted array searches for it, a block counts whole
words and then the low bits of one more, and a list of runs adds up the runs that end before it.
-/

namespace ChunkedSet

open Finset

variable {S : Finset Nat} {p : Nat}

theorem SortedArray.rank_eq_card {a : SortedArray} (h : a.Denotes S) (p : Nat) :
    a.rank p = #(S ∩ Icc 0 p) := by
  have hbelow : a.below 0 = 0 := by
    have hle := congrArg List.length (take_below h.1 0)
    have hsize : a.below 0 ≤ a.toList.length := below_le_size 0
    simp only [List.length_take, Nat.not_lt_zero, decide_false, List.filter_false,
      List.length_nil] at hle
    omega
  have hrank := rank_sub_below h (Nat.zero_le p)
  rwa [hbelow, Nat.sub_zero] at hrank

/-- The low bits of a word are counted once they are shifted to its high end. -/
theorem Word.popcount_shiftLeft (w : UInt64) {b : Nat} (hb : b < 64) :
    popcount (w <<< UInt64.ofNat (63 - b)) = Nat.count (has w · = true) (b + 1) := by
  have hshift : 63 - b < 64 := by omega
  have hsplit : 64 = 63 - b + (b + 1) := by omega
  have hlow : Nat.count (has (w <<< UInt64.ofNat (63 - b)) · = true) (63 - b) = 0 := by
    rw [Nat.count_iff_forall_not]
    intro i hi
    rw [has_shiftLeft w i hshift, decide_eq_false (Nat.not_le.2 hi)]
    simp
  rw [popcount_eq_count]
  nth_rewrite 1 [hsplit]
  rw [Nat.count_add, hlow, Nat.zero_add]
  apply Words.count_congr
  intro i hi
  rw [has_shiftLeft w _ hshift]
  simp
  omega

namespace Words

theorem sum_popcount_take (ws : Words) {n : Nat} (hn : n ≤ 1024) :
    ((ws.toList.take n).map Word.popcount).sum = Nat.count (ws.contains · = true) (64 * n) := by
  have hsum := count_add_sum ws.contains 0 n
  rw [Nat.mul_zero, Nat.count_zero, Nat.zero_add, Nat.zero_add] at hsum
  rw [← hsum, toList_eq_map_word, ← List.map_take, List.take_range'_of_length_ge hn,
    List.map_map]
  apply congrArg List.sum
  apply List.map_congr_left
  intro k _
  rw [Function.comp_apply, Word.popcount_eq_count]
  exact count_congr fun i hi => has_word ws k hi

theorem rank_eq_count (ws : Words) (hp : p < chunkSize) :
    ws.rank p = Nat.count (ws.contains · = true) (p + 1) := by
  have hword : p / 64 ≤ 1024 := by
    unfold chunkSize at hp
    omega
  have hmod : p % 64 < 64 := Nat.mod_lt p (by decide)
  have hend : p + 1 = 64 * (p / 64) + (p % 64 + 1) := by omega
  rw [rank, foldl_add_eq_sum, Nat.zero_add, sum_popcount_take ws hword,
    Word.popcount_shiftLeft _ hmod, hend, Nat.count_add _ _ (p % 64 + 1)]
  apply congrArg
  exact count_congr fun i hi => has_word ws (p / 64) (by omega)

end Words

theorem Block.rank_eq_card {b : Block} (h : b.Denotes S) (hp : p < chunkSize) :
    b.words.rank p = #(S ∩ Icc 0 p) := by
  rw [Words.rank_eq_count _ hp, Nat.count_eq_card_filter_range]
  congr 1
  ext q
  simp only [mem_filter, mem_range, h.contains, decide_eq_true_eq, mem_inter, mem_Icc,
    Nat.zero_le, true_and, Nat.lt_succ_iff, and_comm]

namespace RunList

variable {l : RunList} {r : Run} {rest : List Run}

theorem Apart.sum_overlap_tail (hapart : Apart (r :: rest)) (hp : p ≤ r.last) :
    (rest.map fun s => s.overlap 0 p).sum = 0 := by
  rw [List.sum_eq_zero_iff_forall_eq_nat]
  intro n hn
  obtain ⟨s, hs, rfl⟩ := List.mem_map.1 hn
  have hlt := (List.pairwise_cons.1 hapart).1 s hs
  have hnot : ¬max s.first 0 ≤ min s.last p := by omega
  exact if_neg hnot

theorem take_place (h : l.Valid) (p : Nat) :
    l.toList.take (l.place p) = l.toList.filter (·.last < p) :=
  take_partitionPoint h.pairwise fun r s hrs hs => by simp only [decide_eq_true_eq] at *; omega

theorem drop_place (h : l.Valid) (p : Nat) :
    l.toList.drop (l.place p) = l.toList.filter (p ≤ ·.last) := by
  refine (drop_partitionPoint h.pairwise fun r s hrs hs => ?_).trans (List.filter_congr fun r _ => ?_)
  · simp only [decide_eq_true_eq] at *
    omega
  · rw [← decide_not, decide_eq_decide, Nat.not_lt]

theorem getElem?_place (l : RunList) (p : Nat) :
    l.runs[l.place p]? = (l.toList.drop (l.place p)).head? := by
  rw [List.head?_drop, toList, Array.getElem?_toList]

theorem rank_eq_card (h : l.Denotes S) (p : Nat) : l.rank p = #(S ∩ Icc 0 p) := by
  have hfront : (l.runs.extract 0 (l.place p)).foldl (fun n r => n + r.size) 0 =
      ((l.toList.take (l.place p)).map fun r => r.overlap 0 p).sum := by
    rw [← Array.foldl_toList, Words.foldl_add_eq_sum, Nat.zero_add, Array.toList_extract]
    apply congrArg List.sum
    apply List.map_congr_left
    intro r hr
    have hr' : r ∈ l.toList.take (l.place p) := by simpa [toList] using hr
    have hlast : r.last < p := by
      rw [take_place h.1] at hr'
      exact of_decide_eq_true (List.mem_filter.1 hr').2
    have hrun := (h.1.2 r (List.mem_of_mem_take hr')).1
    have hle : max r.first 0 ≤ min r.last p := by omega
    simp only [Run.overlap, hle, if_true, Run.size]
    omega
  have hparts := List.take_append_drop (l.place p) l.toList
  have hsum := sum_overlap_eq_card h.1.1 0 p
  rw [h.covered, ← hparts, List.map_append, List.sum_append, ← hfront] at hsum
  rw [← hsum, rank, getElem?_place]
  cases hcase : l.toList.drop (l.place p) with
  | nil => rfl
  | cons r rest =>
    have hapart : Apart (r :: rest) := hcase ▸ h.1.1.sublist (List.drop_sublist _ _)
    have hlast : p ≤ r.last := by
      have hr : r ∈ l.toList.filter (p ≤ ·.last) := by simp [← drop_place h.1, hcase]
      exact of_decide_eq_true (List.mem_filter.1 hr).2
    rw [List.map_cons, List.sum_cons, hapart.sum_overlap_tail hlast, Run.overlap]
    dsimp only [List.head?_cons]
    split_ifs <;> omega

end RunList

theorem Chunk.rank_eq_card {c : Chunk} (h : c.Denotes S) (hp : p < chunkSize) :
    c.rank p = #(S ∩ Icc 0 p) := by
  cases c with
  | array a => exact SortedArray.rank_eq_card h p
  | block b => exact Block.rank_eq_card h hp
  | runs l => exact RunList.rank_eq_card h p

end ChunkedSet
