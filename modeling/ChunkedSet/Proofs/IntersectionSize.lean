import Mathlib.Data.List.TakeWhile
import ChunkedSet.Chunk.Compare
import ChunkedSet.Proofs.Rank

/-!
# Sizes of intersections

Every pair of representations counts its common positions in a way of its own: by the walks that
would build the intersection, by questions about the single values of an array, or by the ranges
of a list of runs. Each count is the cardinality of the intersection.
-/

namespace ChunkedSet

open Finset

variable {S T U : Finset Nat} {last p : Nat}

namespace SortedArray

variable {a b : SortedArray}

theorem intersectionSize_eq_card (ha : a.Denotes S) (hb : b.Denotes T) :
    a.intersectionSize b = #(S ∩ T) := by
  rw [intersectionSize, intersectInto_eq_foldl _ ha.1.1 hb.1.1, foldl_count, Nat.zero_add]
  refine (length_filter ha _).trans (congrArg card ?_)
  ext p
  have hmem : p ∈ b.values.toList ↔ p ∈ T := hb.mem_toList
  rw [mem_filter, mem_inter, decide_eq_true_eq, hmem]

theorem countP_eq_card (h : a.Denotes S) (q : Nat → Bool) :
    a.values.countP q = #{p ∈ S | q p = true} := by
  rw [← Array.countP_toList, List.countP_eq_length_filter]
  exact length_filter h q

end SortedArray

namespace RunList

variable {l m : RunList} {r : Run} {rest runs : List Run}

/-! Counting overlaps instead of pushing them. -/

theorem size_pushOverlap (out : Array Run) (x y : Run) :
    size ⟨pushOverlap out x y⟩ = size ⟨out⟩ + x.overlap y.first y.last := by
  simp only [pushOverlap, Run.overlap]
  split_ifs
  · simp [size, Run.size]
  · rfl

theorem foldPairs_overlap (xs ys : List Run) (out : Array Run) :
    foldPairs (fun n x y => n + x.overlap y.first y.last) xs ys (size ⟨out⟩) =
      size ⟨foldPairs pushOverlap xs ys out⟩ := by
  induction xs, ys, out using foldPairs.induct (f := pushOverlap) with
  | case1 ys out => simp [foldPairs]
  | case2 xs out hne => simp [foldPairs]
  | case3 x xs y ys out hlt ih => rw [foldPairs, foldPairs, if_pos hlt, if_pos hlt, ← ih,
      size_pushOverlap]
  | case4 x xs y ys out hge ih => rw [foldPairs, foldPairs, if_neg hge, if_neg hge, ← ih,
      size_pushOverlap]

theorem intersectionSize_eq_size (l m : RunList) :
    l.intersectionSize m = (l.intersection m).size :=
  foldPairs_overlap l.toList m.toList #[]

/-! What a set has in common with each of the runs adds up. -/

/-- A sum over the runs, of which each counts what the set has in common with it. -/
theorem foldl_eq_card_inter (hapart : Apart runs) {f : Run → Nat}
    (hf : ∀ r ∈ runs, f r = #(U ∩ Icc r.first r.last)) :
    runs.foldl (fun n r => n + f r) 0 = #(U ∩ covered runs) := by
  rw [Words.foldl_add_eq_sum, Nat.zero_add, inter_comm, ← filter_mem_eq_inter]
  apply sum_eq_card_filter hapart
  intro r hr
  rw [filter_mem_eq_inter, inter_comm, hf r hr]

theorem intersectionSizeSorted_eq_card {a : SortedArray} (hl : l.Denotes S) (ha : a.Denotes T) :
    l.intersectionSizeSorted a = #(T ∩ S) := by
  rw [intersectionSizeSorted, ← Array.foldl_toList, ← hl.covered]
  apply foldl_eq_card_inter hl.1.1
  intro r hr
  exact SortedArray.rangeSize_eq_card ha (hl.1.2 r hr).1

theorem intersectionSizeBlock_eq_card {b : Block} (hl : l.Denotes S) (hb : b.Denotes T) :
    l.intersectionSizeBlock b = #(T ∩ S) := by
  rw [intersectionSizeBlock, ← Array.foldl_toList, ← hl.covered]
  apply foldl_eq_card_inter hl.1.1
  intro r _
  exact Block.rangeSize_eq_card hb r.first r.last

theorem mem_covered_takeWhile (hapart : Apart runs) (hruns : ∀ r ∈ runs, r.first ≤ r.last)
    (hp : p ≤ last) : p ∈ covered (runs.takeWhile (·.first ≤ last)) ↔ p ∈ covered runs := by
  induction runs with
  | nil => rfl
  | cons r rest ih =>
    have hrest := ih hapart.tail fun s hs => hruns s (List.mem_cons_of_mem r hs)
    by_cases hr : r.first ≤ last
    · rw [List.takeWhile_cons_of_pos (by simpa using hr), mem_covered_cons, mem_covered_cons, hrest]
    · rw [List.takeWhile_cons_of_neg (by simpa using hr), mem_covered_cons]
      have hle := hruns r List.mem_cons_self
      have hbehind := hapart.before (p := p)
      have hnone : p ∉ covered ([] : List Run) := notMem_empty p
      constructor
      · intro hin
        exact absurd hin hnone
      · rintro (hin | hin)
        · omega
        · have hlt := hbehind hin
          omega

theorem contains_eq (h : l.Denotes S) (p : Nat) : l.contains p = decide (p ∈ S) := by
  have hhead : l.runs[l.place p]? = (l.toList.dropWhile (·.last < p)).head? := by
    rw [dropWhile_last_eq_filter h.1.1 (fun r hr => (h.1.2 r hr).1), ← drop_place h.1,
      getElem?_place]
  rw [Bool.eq_iff_iff, decide_eq_true_eq, ← h.covered, contains, hhead,
    SortedArray.mem_covered_iff_head h.1.1 (fun r hr => (h.1.2 r hr).1) p]
  cases (l.toList.dropWhile (·.last < p)).head? with
  | none => simp
  | some r => simp

end RunList

theorem Block.intersectionSizeUpTo_eq_card {b c : Block} (hb : b.Denotes S) (hc : c.Denotes T)
    (last : Nat) : b.intersectionSizeUpTo c last = #(S ∩ T ∩ Icc 0 last) := by
  rw [intersectionSizeUpTo, Words.sumRange_eq_card _ _ _ _ fun p =>
    b.words.contains p && c.words.contains p]
  · congr 1
    ext p
    simp only [mem_filter, mem_inter, hb.contains, hc.contains, Bool.and_eq_true, decide_eq_true_eq,
      and_comm]
  · intro k i hlo hhi hi
    rw [Word.has_and, Word.has_and, Words.has_rangeMask hlo hhi hi, Words.has_word _ k hi,
      Words.has_word _ k hi, Bool.and_comm]

namespace Chunk

variable {a : SortedArray} {b : Block} {l : RunList} {c d : Chunk}

theorem contains_eq (h : c.Denotes S) (p : Nat) : c.contains p = decide (p ∈ S) := by
  cases c with
  | array a => exact SortedArray.found_iff h p
  | block b => exact Block.Denotes.contains h p
  | runs l => exact RunList.contains_eq h p

theorem countP_contains (ha : a.Denotes S) (hb : b.Denotes T) :
    a.values.countP b.contains = #(S ∩ T) := by
  rw [SortedArray.countP_eq_card ha]
  congr 1
  ext p
  rw [mem_filter, mem_inter, Block.contains, hb.contains, decide_eq_true_eq]

theorem intersectionSize_eq_card (hc : c.Denotes S) (hd : d.Denotes T) :
    c.intersectionSize d = #(S ∩ T) := by
  cases c with
  | array a =>
    cases d with
    | array a' => exact SortedArray.intersectionSize_eq_card hc hd
    | block b => exact countP_contains hc hd
    | runs l => exact RunList.intersectionSizeSorted_eq_card hd hc
  | block b =>
    cases d with
    | array a =>
      rw [inter_comm]
      exact countP_contains hd hc
    | block b' => exact (Block.intersection_denotes hc hd).size
    | runs l => exact RunList.intersectionSizeBlock_eq_card hd hc
  | runs l =>
    cases d with
    | array a =>
      rw [inter_comm]
      exact RunList.intersectionSizeSorted_eq_card hc hd
    | block b =>
      rw [inter_comm]
      exact RunList.intersectionSizeBlock_eq_card hc hd
    | runs l' =>
      rw [← (RunList.intersection_denotes hc hd).size]
      exact RunList.intersectionSize_eq_size l l'

/-! The common positions up to a last one. -/

theorem countUpTo_eq_card (ha : a.Denotes S) (hd : d.Denotes T) :
    countUpTo a d last = #(S ∩ T ∩ Icc 0 last) := by
  have htake : (a.values.extract 0 (a.rank last)).toList = a.toList.filter (· ≤ last) := by
    rw [SortedArray.toList_extract_zero, SortedArray.take_rank ha.1]
  rw [countUpTo, ← Array.countP_toList, htake, List.countP_eq_length_filter, List.filter_filter,
    SortedArray.length_filter ha]
  congr 1
  ext p
  simp only [mem_filter, mem_inter, mem_Icc, contains_eq hd, Bool.and_eq_true, decide_eq_true_eq,
    Nat.zero_le, true_and, and_assoc]

theorem overlapUpTo_eq_card (hl : l.Denotes S) (hd : d.Denotes T) :
    overlapUpTo l d last = #(S ∩ T ∩ Icc 0 last) := by
  have hapart : RunList.Apart (l.toList.takeWhile (·.first ≤ last)) :=
    hl.1.1.sublist (List.takeWhile_sublist _)
  have hset : T ∩ Icc 0 last ∩ RunList.covered (l.toList.takeWhile (·.first ≤ last)) =
      S ∩ T ∩ Icc 0 last := by
    ext p
    have hmem : p ≤ last →
        (p ∈ RunList.covered (l.toList.takeWhile (·.first ≤ last)) ↔ p ∈ S) := by
      rw [← hl.covered]
      exact RunList.mem_covered_takeWhile hl.1.1 fun r hr => (hl.1.2 r hr).1
    simp only [mem_inter, mem_Icc]
    grind
  rw [overlapUpTo, ← hset]
  apply RunList.foldl_eq_card_inter hapart
  intro r hr
  have hrun := (hl.1.2 r ((List.takeWhile_sublist _).subset hr)).1
  have hfirst := List.mem_takeWhile_imp hr
  rw [decide_eq_true_eq] at hfirst
  rw [rangeSize_eq_card hd (le_min hrun hfirst)]
  congr 1
  ext p
  simp only [mem_inter, mem_Icc, le_min_iff]
  grind

theorem intersectionSizeUpTo_eq_card (hc : c.Denotes S) (hd : d.Denotes T) (last : Nat) :
    c.intersectionSizeUpTo d last = #(S ∩ T ∩ Icc 0 last) := by
  by_cases hlast : last = lastPosition
  · have hfull : c.intersectionSizeUpTo d last = c.intersectionSize d := by
      rw [intersectionSizeUpTo.eq_def, if_pos hlast]
    rw [hfull, intersectionSize_eq_card hc hd]
    congr 1
    ext p
    have hlt : p ∈ S → p < chunkSize := hc.lt
    simp only [mem_inter, mem_Icc, hlast]
    unfold chunkSize lastPosition at *
    grind
  · rw [intersectionSizeUpTo.eq_def, if_neg hlast]
    cases c with
    | array a => exact countUpTo_eq_card hc hd
    | block b =>
      cases d with
      | array a =>
        rw [inter_comm S]
        exact countUpTo_eq_card hd hc
      | block b' => exact Block.intersectionSizeUpTo_eq_card hc hd last
      | runs l =>
        rw [inter_comm S]
        exact overlapUpTo_eq_card hd hc
    | runs l =>
      cases d with
      | array a =>
        rw [inter_comm S]
        exact countUpTo_eq_card hd hc
      | block b' => exact overlapUpTo_eq_card hc hd
      | runs l' => exact overlapUpTo_eq_card hc hd

end Chunk

end ChunkedSet
