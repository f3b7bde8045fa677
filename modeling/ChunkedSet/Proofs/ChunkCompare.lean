import ChunkedSet.Proofs.ChunkUpdate
import ChunkedSet.Proofs.IntersectionSize

/-!
# Comparisons of chunks

Disjointness, inclusion and equality of chunks are those of their positions. Arrays are walked or
searched, words are combined, and runs are asked for as whole ranges, or their overlaps counted.
-/

namespace ChunkedSet

open Finset

variable {S T : Finset Nat} {lo hi p : Nat}

theorem card_inter_eq_left_iff : #(S ∩ T) = #S ↔ S ⊆ T := by
  constructor
  · intro hcard
    exact inter_eq_left.1 (eq_of_subset_of_card_le inter_subset_left hcard.ge)
  · intro hsub
    rw [inter_eq_left.2 hsub]

theorem card_inter_eq_zero_iff : #(S ∩ T) = 0 ↔ Disjoint S T := by
  rw [card_eq_zero, disjoint_iff_inter_eq_empty]

namespace SortedArray

variable {a b : SortedArray}

theorem isDisjointFrom_iff {xs ys : List Nat} (hxs : xs.Pairwise (· < ·))
    (hys : ys.Pairwise (· < ·)) : isDisjointFrom xs ys = true ↔ ∀ p ∈ xs, p ∉ ys := by
  induction xs, ys using isDisjointFrom.induct with
  | case1 ys => simp [isDisjointFrom]
  | case2 xs hne => simp [isDisjointFrom]
  | case3 x xs ys => simp [isDisjointFrom]
  | case4 x xs y ys hne hlt ih =>
    have hx : x ∉ y :: ys := by
      intro hmem
      rcases List.mem_cons.1 hmem with heq | hmem
      · exact hne heq
      · exact Nat.lt_asymm hlt ((List.pairwise_cons.1 hys).1 x hmem)
    rw [isDisjointFrom, if_neg hne, if_pos hlt, ih hxs.tail hys, List.forall_mem_cons]
    exact (and_iff_right hx).symm
  | case5 x xs y ys hne hge ih =>
    have hy : ∀ p ∈ x :: xs, p ≠ y := by
      intro p hp heq
      rcases List.mem_cons.1 hp with rfl | hp
      · exact hne heq
      · have hlt := (List.pairwise_cons.1 hxs).1 p hp
        omega
    rw [isDisjointFrom, if_neg hne, if_neg hge, ih hxs hys.tail]
    refine forall₂_congr fun p hp => ?_
    rw [List.mem_cons, not_or]
    exact (and_iff_right (hy p hp)).symm

theorem isDisjoint_iff (ha : a.Denotes S) (hb : b.Denotes T) :
    a.isDisjoint b = true ↔ Disjoint S T := by
  rw [isDisjoint, isDisjointFrom_iff ha.1.1 hb.1.1, disjoint_left]
  exact forall_congr' fun p => imp_congr ha.mem_toList (not_congr hb.mem_toList)

/-- The searches start behind values that are less than all the values still to be found. -/
theorem subsetFrom_iff (hb : b.Denotes T) {small : List Nat} (hsmall : small.Pairwise (· < ·))
    {start : Nat} (hstart : start ≤ b.size)
    (hbefore : ∀ p ∈ small, ∀ q ∈ b.toList.take start, q < p) :
    subsetFrom b.values small start = true ↔ ∀ p ∈ small, p ∈ T := by
  induction small generalizing start with
  | nil => simp [subsetFrom]
  | cons x small ih =>
    obtain ⟨hx, hrest⟩ := List.pairwise_cons.1 hsmall
    have hplace : partitionPointIn (· < x) b.values start b.values.size = b.below x :=
      partitionPointIn_eq hb.1.1 (fun p q hpq hq => by simp only [decide_eq_true_eq] at *; omega)
        hstart fun q hq => decide_eq_true (hbefore x List.mem_cons_self q hq)
    rw [subsetFrom, hplace, found_iff hb, List.forall_mem_cons]
    by_cases hmem : x ∈ T
    · rw [if_pos (decide_eq_true hmem), and_iff_right hmem]
      have hget := (getElem?_below hb x).2 hmem
      have hlt : b.below x < b.size := (Array.getElem?_eq_some_iff.1 hget).1
      -- the next search skips `x` too, and everything left of `small` exceeds `x`
      refine ih hrest hlt fun p hp q hq => ?_
      rw [List.take_add_one, List.mem_append, toList, Array.getElem?_toList, hget] at hq
      have hxp := hx p hp
      rcases hq with hq | hq
      · have hfilter : q ∈ b.toList.filter (· < x) := by
          rw [← take_below hb.1 x]
          exact hq
        have hqx := of_decide_eq_true (List.mem_filter.1 hfilter).2
        omega
      · obtain rfl : q = x := List.mem_singleton.1 hq
        exact hxp
    · rw [if_neg (by simpa using hmem)]
      simp [hmem]

theorem isSubset_iff (ha : a.Denotes S) (hb : b.Denotes T) : a.isSubset b = true ↔ S ⊆ T := by
  have hfrom : subsetFrom b.values a.toList 0 = true ↔ S ⊆ T := by
    rw [subsetFrom_iff hb ha.1.1 (Nat.zero_le _) (by simp), subset_iff]
    exact forall_congr' fun p => imp_congr_left ha.mem_toList
  rw [isSubset]
  split
  · rename_i hlt
    have hcard : #T < #S := by rwa [ha.size, hb.size] at hlt
    refine iff_of_false Bool.false_ne_true fun hsub => ?_
    exact Nat.not_lt.2 (card_le_card hsub) hcard
  · exact hfrom

theorem all_iff (ha : a.Denotes S) (q : Nat → Bool) :
    a.values.all q = true ↔ ∀ p ∈ S, q p = true := by
  rw [← Array.all_toList, List.all_eq_true]
  exact forall_congr' fun p => imp_congr_left ha.mem_toList

theorem containsRange_iff (ha : a.Denotes S) (hle : lo ≤ hi) :
    a.containsRange lo hi = true ↔ Icc lo hi ⊆ S := by
  have hwidth : #(Icc lo hi) = hi - lo + 1 := by
    rw [Nat.card_Icc]
    omega
  rw [containsRange, beq_iff_eq, rangeSize_eq_card ha hle, ← hwidth, inter_comm,
    card_inter_eq_left_iff]

end SortedArray

/-! Words. -/

theorem Word.and_eq_right_iff (v w : UInt64) : v &&& w = w ↔ w &&& ~~~v = 0 := by
  rw [eq_zero_iff]
  constructor
  · intro heq i _
    have hbit := congrArg (has · i) heq
    rw [has_and] at hbit
    rw [has_and_not, ← hbit]
    cases has v i <;> simp
  · intro hnone
    refine ext_has fun i hi => ?_
    have hbit := hnone i hi
    rw [has_and_not] at hbit
    rw [has_and]
    cases hv : has v i
    · rw [hv, Bool.not_false, Bool.and_true] at hbit
      rw [hbit, Bool.false_and]
    · rw [Bool.true_and]

namespace Words

theorem all_zipWith_beq_iff {f g : UInt64 → UInt64 → UInt64} {q r : Bool → Bool → Bool}
    (hf : ∀ v w i, i < 64 → Word.has (f v w) i = q (Word.has v i) (Word.has w i))
    (hq : q false false = false)
    (hg : ∀ v w i, i < 64 → Word.has (g v w) i = r (Word.has v i) (Word.has w i))
    (hr : r false false = false) (ws xs : Words) :
    (Vector.zipWith (fun v w => f v w == g v w) ws xs).all id = true ↔
      ∀ p, q (ws.contains p) (xs.contains p) = r (ws.contains p) (xs.contains p) := by
  have hall : (Vector.zipWith (fun v w => f v w == g v w) ws xs).all id = true ↔
      Vector.zipWith f ws xs = Vector.zipWith g ws xs := by
    rw [Vector.all_eq_true, Vector.ext_iff]
    simp
  rw [hall]
  constructor
  · intro heq p
    rw [← contains_zipWith hf hq, ← contains_zipWith hg hr, heq]
  · intro hagree
    refine ext_contains fun p => ?_
    rw [contains_zipWith hf hq, contains_zipWith hg hr, hagree]

theorem containsRange_iff (ws : Words) (lo hi : Nat) :
    ws.containsRange lo hi = true ↔ Icc lo hi ⊆ ws.support := by
  rw [← sdiff_eq_empty_iff_subset, ← card_eq_zero, ← sumRange_missing, sumRange, foldl_add_eq_sum,
    Nat.zero_add, List.sum_eq_zero_iff_forall_eq_nat, containsRange, List.all_eq_true,
    List.forall_mem_map]
  refine forall₂_congr fun km _ => ?_
  rw [beq_iff_eq, Word.and_eq_right_iff, ← Word.length_bits, List.length_eq_zero_iff,
    Word.bits_eq_nil]

end Words

namespace Block

variable {b c : Block}

theorem isDisjoint_iff (hb : b.Denotes S) (hc : c.Denotes T) :
    b.isDisjoint c = true ↔ Disjoint S T := by
  rw [isDisjoint, Words.all_zipWith_beq_iff (q := (· && ·)) (r := fun _ _ => false)
    (fun v w i _ => Word.has_and v w i) rfl (fun _ _ i _ => Word.has_zero i) rfl, disjoint_left]
  refine forall_congr' fun p => ?_
  rw [hb.contains, hc.contains]
  simp

theorem isSubset_iff (hb : b.Denotes S) (hc : c.Denotes T) : b.isSubset c = true ↔ S ⊆ T := by
  have hwords : (Vector.zipWith (fun v w : UInt64 => v &&& w == v) b.words c.words).all id = true ↔
      S ⊆ T := by
    rw [Words.all_zipWith_beq_iff (q := (· && ·)) (r := fun x _ => x)
      (fun v w i _ => Word.has_and v w i) rfl (fun _ _ _ _ => rfl) rfl, subset_iff]
    refine forall_congr' fun p => ?_
    rw [hb.contains, hc.contains]
    simp
  rw [isSubset, Bool.and_eq_true, decide_eq_true_eq, hwords, hb.size, hc.size]
  exact and_iff_right_of_imp card_le_card

theorem all_positions_iff (hb : b.Denotes S) (q : Nat → Bool) :
    b.positions.all q = true ↔ ∀ p ∈ S, q p = true := by
  rw [← Array.all_toList, hb.positions_eq_sort, List.all_eq_true]
  exact forall_congr' fun p => imp_congr_left (mem_sort _)

end Block

namespace RunList

variable {l m : RunList} {a : SortedArray} {b : Block}

theorem le_foldPairs_overlap (xs ys : List Run) (n : Nat) :
    n ≤ foldPairs (fun n x y => n + x.overlap y.first y.last) xs ys n := by
  induction xs, ys, n using foldPairs.induct (f := fun n x y => n + x.overlap y.first y.last) with
  | case1 ys n => rw [foldPairs]
  | case2 xs n hne => simp [foldPairs]
  | case3 x xs y ys n hlt ih =>
    rw [foldPairs, if_pos hlt]
    exact (Nat.le_add_right _ _).trans ih
  | case4 x xs y ys n hge ih =>
    rw [foldPairs, if_neg hge]
    exact (Nat.le_add_right _ _).trans ih

theorem foldPairs_overlap_eq_zero (xs ys : List Run) (n : Nat) :
    foldPairs (fun n x y => n + x.overlap y.first y.last) xs ys n = 0 ↔
      n = 0 ∧ isDisjointFrom xs ys = true := by
  induction xs, ys using isDisjointFrom.induct generalizing n with
  | case1 ys => simp [foldPairs, isDisjointFrom]
  | case2 xs hne => simp [foldPairs, isDisjointFrom]
  | case3 x xs y ys hne =>
    have hle := fun xs ys => le_foldPairs_overlap xs ys (n + x.overlap y.first y.last)
    rw [isDisjointFrom, if_pos hne]
    refine iff_of_false ?_ fun h => Bool.false_ne_true h.2
    rw [foldPairs]
    split
    · have h := hle xs (y :: ys)
      omega
    · have h := hle (x :: xs) ys
      omega
  | case4 x xs y ys hzero hlt ih =>
    rw [foldPairs, if_pos hlt, ih, isDisjointFrom, if_neg hzero, if_pos hlt]
    rw [not_not] at hzero
    rw [hzero, Nat.add_zero]
  | case5 x xs y ys hzero hge ih =>
    rw [foldPairs, if_neg hge, ih, isDisjointFrom, if_neg hzero, if_neg hge]
    rw [not_not] at hzero
    rw [hzero, Nat.add_zero]

theorem isDisjoint_iff (hl : l.Denotes S) (hm : m.Denotes T) :
    l.isDisjoint m = true ↔ Disjoint S T := by
  have hcount : l.intersectionSize m = #(S ∩ T) := by
    rw [intersectionSize_eq_size, (intersection_denotes hl hm).size]
  have hzero := foldPairs_overlap_eq_zero l.toList m.toList 0
  rw [eq_self_iff_true, true_and] at hzero
  rw [isDisjoint, ← hzero, ← card_inter_eq_zero_iff, ← hcount]
  rfl

theorem all_beq_zero_iff (runs : Array Run) (f : Run → Nat) :
    (runs.all fun r => f r == 0) = true ↔ runs.foldl (fun n r => n + f r) 0 = 0 := by
  rw [← Array.all_toList, ← Array.foldl_toList, Words.foldl_add_eq_sum, Nat.zero_add,
    List.sum_eq_zero_iff_forall_eq_nat, List.forall_mem_map, List.all_eq_true]
  exact forall₂_congr fun r _ => beq_iff_eq

theorem isDisjointSorted_iff (hl : l.Denotes S) (ha : a.Denotes T) :
    l.isDisjointSorted a = true ↔ Disjoint S T := by
  rw [isDisjointSorted, all_beq_zero_iff, ← intersectionSizeSorted,
    intersectionSizeSorted_eq_card hl ha, card_inter_eq_zero_iff, disjoint_comm]

theorem isDisjointBlock_iff (hl : l.Denotes S) (hb : b.Denotes T) :
    l.isDisjointBlock b = true ↔ Disjoint S T := by
  rw [isDisjointBlock, all_beq_zero_iff, ← intersectionSizeBlock,
    intersectionSizeBlock_eq_card hl hb, card_inter_eq_zero_iff, disjoint_comm]

theorem covered_subset_iff {runs : List Run} :
    covered runs ⊆ S ↔ ∀ r ∈ runs, Icc r.first r.last ⊆ S := by
  induction runs with
  | nil => simp [covered]
  | cons r rest ih => rw [covered, union_subset_iff, ih, List.forall_mem_cons]

theorem succ_last_notMem_covered {runs : List Run} (hapart : Apart runs)
    (hruns : ∀ r ∈ runs, r.first ≤ r.last) {r : Run} (hr : r ∈ runs) :
    r.last + 1 ∉ covered runs := by
  induction runs with
  | nil => exact absurd hr List.not_mem_nil
  | cons x rest ih =>
    have htail := ih hapart.tail fun s hs => hruns s (List.mem_cons_of_mem x hs)
    rw [mem_covered_cons]
    rintro (hin | hin)
    · rcases List.mem_cons.1 hr with rfl | hr
      · omega
      · have hlt := (List.pairwise_cons.1 hapart).1 r hr
        have hle := hruns r (List.mem_cons_of_mem x hr)
        omega
    · rcases List.mem_cons.1 hr with rfl | hr
      · exact Nat.lt_irrefl _ (hapart.before hin)
      · exact htail hr hin

theorem containsRange_iff (hl : l.Denotes S) (hle : lo ≤ hi) :
    l.containsRange lo hi = true ↔ Icc lo hi ⊆ S := by
  have hcontains := contains_eq hl lo
  have hlo : lo ∈ Icc lo hi := left_mem_Icc.2 hle
  rw [contains] at hcontains
  rw [containsRange]
  cases hget : l.runs[l.place lo]? with
  | none =>
    rw [hget] at hcontains
    have hnot : lo ∉ S := of_decide_eq_false hcontains.symm
    exact iff_of_false Bool.false_ne_true fun hsub => hnot (hsub hlo)
  | some r =>
    rw [hget] at hcontains
    have hfirst : r.first ≤ lo ↔ lo ∈ S := decide_eq_decide.1 hcontains
    have hdrop : (l.toList.filter (lo ≤ ·.last)).head? = some r := by
      rw [← drop_place hl.1, ← getElem?_place, hget]
    obtain ⟨hr, hlast⟩ := List.mem_filter.1 (List.mem_of_head? hdrop)
    have hlast : lo ≤ r.last := of_decide_eq_true hlast
    rw [Bool.and_eq_true, decide_eq_true_eq, decide_eq_true_eq, hfirst]
    constructor
    · rintro ⟨hin, hhi⟩ p hp
      rw [mem_Icc] at hp
      have hfirst := hfirst.2 hin
      rw [← hl.covered, mem_covered]
      exact ⟨r, hr, by omega, by omega⟩
    · intro hsub
      refine ⟨hsub hlo, ?_⟩
      by_contra hlt
      have hnext : r.last + 1 ∈ S := hsub (mem_Icc.2 ⟨by omega, by omega⟩)
      rw [← hl.covered] at hnext
      exact succ_last_notMem_covered hl.1.1 (fun r hr => (hl.1.2 r hr).1) hr hnext

end RunList

namespace Chunk

variable {c d : Chunk}

theorem containsRange_iff (hc : c.Denotes S) (hle : lo ≤ hi) :
    c.containsRange lo hi = true ↔ Icc lo hi ⊆ S := by
  cases c with
  | array a => exact SortedArray.containsRange_iff hc hle
  | block b =>
    rw [← Block.Denotes.support hc]
    exact Words.containsRange_iff b.words lo hi
  | runs l => exact RunList.containsRange_iff hc hle

theorem all_not_contains_iff {a : SortedArray} {b : Block} (ha : a.Denotes S) (hb : b.Denotes T) :
    (a.values.all fun p => !b.contains p) = true ↔ Disjoint S T := by
  rw [SortedArray.all_iff ha, disjoint_left]
  refine forall₂_congr fun p _ => ?_
  rw [Block.contains, hb.contains]
  simp

theorem isDisjoint_iff (hc : c.Denotes S) (hd : d.Denotes T) :
    c.isDisjoint d = true ↔ Disjoint S T := by
  cases c with
  | array a =>
    cases d with
    | array a' => exact SortedArray.isDisjoint_iff hc hd
    | block b => exact all_not_contains_iff hc hd
    | runs l => exact (RunList.isDisjointSorted_iff hd hc).trans disjoint_comm
  | block b =>
    cases d with
    | array a => exact (all_not_contains_iff hd hc).trans disjoint_comm
    | block b' => exact Block.isDisjoint_iff hc hd
    | runs l => exact (RunList.isDisjointBlock_iff hd hc).trans disjoint_comm
  | runs l =>
    cases d with
    | array a => exact RunList.isDisjointSorted_iff hc hd
    | block b => exact RunList.isDisjointBlock_iff hc hd
    | runs l' => exact RunList.isDisjoint_iff hc hd

theorem isSubset_iff (hc : c.Denotes S) (hd : d.Denotes T) : c.isSubset d = true ↔ S ⊆ T := by
  rw [isSubset.eq_def]
  split
  · rename_i hlt
    rw [hc.size, hd.size] at hlt
    refine iff_of_false Bool.false_ne_true fun hsub => ?_
    exact Nat.not_lt.2 (card_le_card hsub) hlt
  cases c with
  | array a =>
    cases d with
    | array a' => exact SortedArray.isSubset_iff hc hd
    | block b =>
      rw [SortedArray.all_iff hc, subset_iff]
      refine forall₂_congr fun p _ => ?_
      rw [Block.contains, Block.Denotes.contains hd, decide_eq_true_eq]
    | runs l =>
      have hcount := RunList.intersectionSizeSorted_eq_card hd hc
      have hsize : a.size = #S := SortedArray.Denotes.size hc
      rw [beq_iff_eq, hcount, hsize, card_inter_eq_left_iff]
  | block b =>
    cases d with
    | array a =>
      rw [Block.all_positions_iff hc, subset_iff]
      refine forall₂_congr fun p _ => ?_
      rw [SortedArray.contains, SortedArray.found_iff hd, decide_eq_true_eq]
    | block b' => exact Block.isSubset_iff hc hd
    | runs l =>
      have hcount := RunList.intersectionSizeBlock_eq_card hd hc
      have hsize : b.size = #S := Block.Denotes.size hc
      rw [beq_iff_eq, hcount, hsize, card_inter_eq_left_iff]
  | runs l =>
    have hruns : ∀ r ∈ l.toList, d.containsRange r.first r.last = true ↔ Icc r.first r.last ⊆ T :=
      fun r hr => containsRange_iff hd (hc.1.2 r hr).1
    have hall : (l.runs.all fun r => d.containsRange r.first r.last) = true ↔ S ⊆ T := by
      rw [← Array.all_toList, List.all_eq_true, ← RunList.Denotes.covered hc,
        RunList.covered_subset_iff]
      exact forall₂_congr hruns
    cases d <;> exact hall

theorem size_eq_and_positions_eq_iff (hc : c.Denotes S) (hd : d.Denotes T) :
    (c.size == d.size && c.positions == d.positions) = true ↔ S = T := by
  have hpositions : c.positions = d.positions ↔ S.sort (· ≤ ·) = T.sort (· ≤ ·) := by
    rw [← hc.toList_eq_sort, ← hd.toList_eq_sort]
    exact Array.toList_inj.symm
  rw [Bool.and_eq_true, beq_iff_eq, beq_iff_eq, hpositions, hc.size, hd.size]
  constructor
  · rintro ⟨-, hsort⟩
    rw [← sort_toFinset S (· ≤ ·), hsort, sort_toFinset]
  · rintro rfl
    exact ⟨rfl, rfl⟩

/-- Two chunks of one representation are compared as they are: no set has two forms in it. -/
theorem equals_iff (hc : c.Denotes S) (hd : d.Denotes T) : c.equals d = true ↔ S = T := by
  have hsame : c.isRuns = d.isRuns → c.isBlock = d.isBlock → (c = d ↔ S = T) := by
    intro hruns hblock
    constructor
    · rintro rfl
      exact hc.unique hd
    · rintro rfl
      exact hc.eq hd hruns hblock
  rw [equals.eq_def]
  split
  · rw [beq_iff_eq, ← hsame rfl rfl, array.injEq]
  · rw [beq_iff_eq, ← hsame rfl rfl, block.injEq]
  · rw [beq_iff_eq, ← hsame rfl rfl, runs.injEq]
  · exact size_eq_and_positions_eq_iff hc hd

end Chunk

end ChunkedSet
