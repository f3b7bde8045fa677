import ChunkedSet.Proofs.Denotes

/-!
# Sorted arrays as sets

A search splits a sorted array into the values on either side of its target, so that point and
range updates are splices of such parts.
-/

namespace ChunkedSet

section Search

variable {α : Type} {p : α → Bool}

theorem take_satisfies {l : List α} {k : Nat}
    (h : ∀ i x, l[i]? = some x → p x = decide (i < k)) : ∀ x ∈ l.take k, p x = true := by
  intro x hx
  obtain ⟨i, hi⟩ := List.getElem?_of_mem hx
  rw [List.getElem?_take] at hi
  split at hi
  · rename_i hlt
    rw [h i x hi]
    exact decide_eq_true hlt
  · cases hi

theorem drop_satisfies_not {l : List α} {k : Nat}
    (h : ∀ i x, l[i]? = some x → p x = decide (i < k)) : ∀ x ∈ l.drop k, p x = false := by
  intro x hx
  obtain ⟨i, hi⟩ := List.getElem?_of_mem hx
  rw [List.getElem?_drop] at hi
  rw [h _ x hi]
  exact decide_eq_false (Nat.not_lt_of_le (Nat.le_add_right k i))

theorem take_eq_filter {l : List α} {k : Nat}
    (h : ∀ i x, l[i]? = some x → p x = decide (i < k)) : l.take k = l.filter p := by
  have hfront := List.filter_eq_self.2 (take_satisfies h)
  have hback := List.filter_eq_nil_iff.2 fun x hx => Bool.eq_false_iff.1 (drop_satisfies_not h x hx)
  have hsplit := List.filter_append (p := p) (l.take k) (l.drop k)
  rw [List.take_append_drop, hfront, hback, List.append_nil] at hsplit
  exact hsplit.symm

theorem drop_eq_filter {l : List α} {k : Nat}
    (h : ∀ i x, l[i]? = some x → p x = decide (i < k)) : l.drop k = l.filter fun x => !p x := by
  have hfront : (l.take k).filter (!p ·) = [] :=
    List.filter_eq_nil_iff.2 fun x hx => by simp [take_satisfies h x hx]
  have hback : (l.drop k).filter (!p ·) = l.drop k :=
    List.filter_eq_self.2 fun x hx => by simp [drop_satisfies_not h x hx]
  have hsplit := List.filter_append (p := (!p ·)) (l.take k) (l.drop k)
  rw [List.take_append_drop, hfront, hback, List.nil_append] at hsplit
  exact hsplit.symm

theorem leading_of_pairwise {R : α → α → Prop} {xs : Array α} (hxs : xs.toList.Pairwise R)
    (hp : ∀ x y, R x y → p y = true → p x = true) (lo hi : Nat) : Leading p xs lo hi := by
  intro i j x y _ hij _ hx hy hpy
  rw [← Array.getElem?_toList] at hx hy
  rcases Nat.eq_or_lt_of_le hij with rfl | hlt
  · rw [hx, Option.some_inj] at hy
    rwa [hy]
  · obtain ⟨hi, rfl⟩ := List.getElem?_eq_some_iff.1 hx
    obtain ⟨hj, rfl⟩ := List.getElem?_eq_some_iff.1 hy
    exact hp _ _ (List.pairwise_iff_getElem.1 hxs i j hi hj hlt) hpy

variable {xs : Array α} {R : α → α → Prop}

theorem partitionPoint_iff (hxs : xs.toList.Pairwise R)
    (hp : ∀ x y, R x y → p y = true → p x = true) (i : Nat) (x : α) (hx : xs.toList[i]? = some x) :
    p x = decide (i < partitionPoint p xs) :=
  partitionPoint_splits (leading_of_pairwise hxs hp 0 xs.size) (by rwa [← Array.getElem?_toList])

theorem take_partitionPoint (hxs : xs.toList.Pairwise R)
    (hp : ∀ x y, R x y → p y = true → p x = true) :
    xs.toList.take (partitionPoint p xs) = xs.toList.filter p :=
  take_eq_filter (partitionPoint_iff hxs hp)

theorem drop_partitionPoint (hxs : xs.toList.Pairwise R)
    (hp : ∀ x y, R x y → p y = true → p x = true) :
    xs.toList.drop (partitionPoint p xs) = xs.toList.filter fun x => !p x :=
  drop_eq_filter (partitionPoint_iff hxs hp)

theorem partitionPoint_eq_length (hxs : xs.toList.Pairwise R)
    (hp : ∀ x y, R x y → p y = true → p x = true) :
    partitionPoint p xs = (xs.toList.filter p).length := by
  have hle := partitionPoint_le_size p xs
  rw [← take_partitionPoint hxs hp, List.length_take, Array.length_toList]
  omega

/-- A search that starts behind elements which all have the property finds the same point. -/
theorem partitionPointIn_eq (hxs : xs.toList.Pairwise R)
    (hp : ∀ x y, R x y → p y = true → p x = true) {lo : Nat} (hlo : lo ≤ xs.size)
    (hbefore : ∀ x ∈ xs.toList.take lo, p x = true) :
    partitionPointIn p xs lo xs.size = partitionPoint p xs := by
  have hge : lo ≤ partitionPointIn p xs lo xs.size := partitionPointBetween_ge _ _ _ _ _
  have hle : partitionPointIn p xs lo xs.size ≤ xs.size := partitionPointBetween_le _ _ _ hlo
  have hsplit : ∀ i x, xs.toList[i]? = some x → p x = decide (i < partitionPointIn p xs lo xs.size) := by
    intro i x hx
    have hx' : xs[i]? = some x := by rwa [← Array.getElem?_toList]
    have hi : i < xs.size := (Array.getElem?_eq_some_iff.1 hx').1
    have h := partitionPointBetween_splits (Nat.le_refl xs.size) (Nat.le_refl (xs.size - lo))
      (leading_of_pairwise hxs hp lo xs.size) hx'
    by_cases hlow : i < lo
    · rw [decide_eq_true (by omega)]
      refine hbefore x ?_
      rw [List.mem_iff_getElem?]
      exact ⟨i, by rw [List.getElem?_take_of_lt hlow, hx]⟩
    · by_cases hlt : i < partitionPointIn p xs lo xs.size
      · rw [decide_eq_true hlt]
        exact h.1 (by omega) hlt
      · rw [decide_eq_false hlt]
        exact h.2 (Nat.not_lt.1 hlt) hi
  have hlen := congrArg List.length (take_eq_filter hsplit)
  rw [List.length_take, Array.length_toList, ← partitionPoint_eq_length hxs hp] at hlen
  omega

theorem toList_insertIdxIfInBounds {i : Nat} (x : α) (hi : i ≤ xs.size) :
    (xs.insertIdxIfInBounds i x).toList = xs.toList.take i ++ x :: xs.toList.drop i := by
  have hlist : ∀ (l : List α) (i : Nat), i ≤ l.length →
      l.insertIdx i x = l.take i ++ x :: l.drop i := by
    intro l
    induction l with
    | nil =>
      intro i hi
      rw [Nat.le_zero.1 hi]
      rfl
    | cons y rest ih =>
      intro i hi
      cases i with
      | zero => rfl
      | succ i =>
        rw [List.insertIdx_succ_cons, ih i (Nat.le_of_succ_le_succ hi), List.take_succ_cons,
          List.drop_succ_cons, List.cons_append]
  rw [Array.insertIdxIfInBounds, dif_pos hi, Array.toList_insertIdx, hlist _ _ hi]

theorem toList_eraseIdxIfInBounds {i : Nat} (hi : i < xs.size) :
    (xs.eraseIdxIfInBounds i).toList = xs.toList.take i ++ xs.toList.drop (i + 1) := by
  rw [Array.eraseIdxIfInBounds, dif_pos hi, Array.toList_eraseIdx,
    List.eraseIdx_eq_take_drop_succ]

theorem eq_nil_or_last (xs : Array α) : xs.toList = [] ∧ xs.back? = none ∨
    ∃ front x, xs.toList = front ++ [x] ∧ xs.back? = some x ∧ xs.pop.toList = front := by
  rcases hxs : xs.back? with _ | x
  · left
    rw [Array.back?_eq_none_iff] at hxs
    exact ⟨by rw [hxs], rfl⟩
  · right
    have hlast : xs.toList.getLast? = some x := by rw [Array.getLast?_toList, hxs]
    obtain ⟨front, hfront⟩ := List.getLast?_eq_some_iff.1 hlast
    exact ⟨front, x, hfront, rfl, by rw [Array.toList_pop, hfront, List.dropLast_concat]⟩

end Search

namespace SortedArray

variable {a : SortedArray} {S : Finset Nat}

theorem take_below (h : a.Valid) (p : Nat) :
    a.toList.take (a.below p) = a.toList.filter (· < p) :=
  take_partitionPoint h.1 fun x y hxy hy => by simp only [decide_eq_true_eq] at *; omega

theorem drop_below (h : a.Valid) (p : Nat) :
    a.toList.drop (a.below p) = a.toList.filter (p ≤ ·) := by
  refine (drop_partitionPoint h.1 fun x y hxy hy => ?_).trans (List.filter_congr fun x _ => ?_)
  · simp only [decide_eq_true_eq] at *
    omega
  · rw [← decide_not, decide_eq_decide, Nat.not_lt]

theorem take_rank (h : a.Valid) (p : Nat) :
    a.toList.take (a.rank p) = a.toList.filter (· ≤ p) :=
  take_partitionPoint h.1 fun x y hxy hy => by simp only [decide_eq_true_eq] at *; omega

theorem drop_rank (h : a.Valid) (p : Nat) :
    a.toList.drop (a.rank p) = a.toList.filter (p < ·) := by
  refine (drop_partitionPoint h.1 fun x y hxy hy => ?_).trans (List.filter_congr fun x _ => ?_)
  · simp only [decide_eq_true_eq] at *
    omega
  · rw [← decide_not, decide_eq_decide, Nat.not_le]

theorem below_le_size (p : Nat) : a.below p ≤ a.size := partitionPoint_le_size _ _

theorem window_eq (h : a.Valid) {lo hi : Nat} (hle : lo ≤ hi) :
    a.window lo hi = (a.below lo, a.rank hi) := by
  refine Prod.ext rfl (partitionPointIn_eq h.1 (fun x y hxy hy => ?_) (below_le_size lo) ?_)
  · simp only [decide_eq_true_eq] at *
    omega
  · intro x hx
    have hx' : x ∈ a.toList.filter (· < lo) := by
      rw [← take_below h lo]
      exact hx
    have hlt := (List.mem_filter.1 hx').2
    simp only [decide_eq_true_eq] at *
    omega

theorem pairwise_splice {l mid : List Nat} {lo hi : Nat} (hl : l.Pairwise (· < ·))
    (hmid : mid.Pairwise (· < ·)) (hin : ∀ x ∈ mid, lo ≤ x ∧ x ≤ hi) (hle : lo ≤ hi) :
    (l.filter (· < lo) ++ mid ++ l.filter (hi < ·)).Pairwise (· < ·) := by
  rw [List.append_assoc, List.pairwise_append, List.pairwise_append]
  refine ⟨hl.filter _, ⟨hmid, hl.filter _, fun x hx y hy => ?_⟩, fun x hx y hy => ?_⟩
  · have hy' := (List.mem_filter.1 hy).2
    have hx' := hin x hx
    rw [decide_eq_true_eq] at hy'
    omega
  · have hx' := (List.mem_filter.1 hx).2
    rw [decide_eq_true_eq] at hx'
    rw [List.mem_append, List.mem_filter, decide_eq_true_eq] at hy
    rcases hy with hy | hy
    · have hy' := hin y hy
      omega
    · omega

theorem splice_denotes (h : a.Denotes S) {lo hi : Nat} (mid : List Nat) {M : Finset Nat}
    (hmid : mid.Pairwise (· < ·)) (hM : ∀ x, x ∈ mid ↔ x ∈ M) (hin : M ⊆ Finset.Icc lo hi)
    (hle : lo ≤ hi) (hhi : hi < chunkSize) {b : SortedArray}
    (hb : b.toList = a.toList.filter (· < lo) ++ mid ++ a.toList.filter (hi < ·)) :
    b.Denotes (S \ Finset.Icc lo hi ∪ M) := by
  refine denotes_of_list (pairwise_splice h.1.1 hmid (fun x hx => ?_) hle) ?_ ?_ hb
  · exact Finset.mem_Icc.1 (hin ((hM x).1 hx))
  · intro x hx
    rw [Finset.mem_union, Finset.mem_sdiff] at hx
    rcases hx with hx | hx
    · exact h.lt hx.1
    · have hle := (Finset.mem_Icc.1 (hin hx)).2
      omega
  · intro x
    simp only [List.mem_append, List.mem_filter, decide_eq_true_eq, h.mem_toList, hM,
      Finset.mem_union, Finset.mem_sdiff, Finset.mem_Icc]
    by_cases hx : x ∈ S
    · by_cases hxM : x ∈ M
      · simp [hxM]
      · simp only [hx, hxM, true_and, or_false]
        omega
    · simp [hx]

theorem length_filter (h : a.Denotes S) (q : Nat → Bool) :
    (a.toList.filter q).length = (S.filter (q · = true)).card := by
  rw [← h.toFinset, ← List.toFinset_filter, List.toFinset_card_of_nodup (h.1.1.nodup.filter q)]

theorem rank_sub_below (h : a.Denotes S) {lo hi : Nat} (hle : lo ≤ hi) :
    a.rank hi - a.below lo = (S ∩ Finset.Icc lo hi).card := by
  have hbelow : a.below lo = (S.filter (· < lo)).card := by
    have hlen := congrArg List.length (take_below h.1 lo)
    have hsize := below_le_size (a := a) lo
    rw [List.length_take, length_filter h, toList, Array.length_toList] at hlen
    simp only [decide_eq_true_eq] at hlen
    rw [← hlen]
    exact (Nat.min_eq_left hsize).symm
  have hrank : a.rank hi = (S.filter (· ≤ hi)).card := by
    have hlen := congrArg List.length (take_rank h.1 hi)
    have hsize : a.rank hi ≤ a.values.size := partitionPoint_le_size _ _
    rw [List.length_take, length_filter h, toList, Array.length_toList] at hlen
    simp only [decide_eq_true_eq] at hlen
    rw [← hlen]
    exact (Nat.min_eq_left hsize).symm
  have hsub : S.filter (· < lo) ⊆ S.filter (· ≤ hi) := fun x hx => by
    rw [Finset.mem_filter] at *
    exact ⟨hx.1, by omega⟩
  rw [hbelow, hrank, ← Finset.card_sdiff_of_subset hsub]
  refine congrArg Finset.card (Finset.ext fun x => ?_)
  simp only [Finset.mem_sdiff, Finset.mem_filter, Finset.mem_inter, Finset.mem_Icc]
  by_cases hx : x ∈ S
  · simp only [hx, true_and]
    omega
  · simp [hx]

theorem rangeSize_eq_card (h : a.Denotes S) {lo hi : Nat} (hle : lo ≤ hi) :
    a.rangeSize lo hi = (S ∩ Finset.Icc lo hi).card := by
  rw [rangeSize, window_eq h.1 hle]
  exact rank_sub_below h hle

theorem toList_extract_zero (k : Nat) : (a.values.extract 0 k).toList = a.toList.take k := by
  simp [toList]

theorem toList_extract_size (k : Nat) :
    (a.values.extract k a.values.size).toList = a.toList.drop k := by
  simp [toList]

theorem insertRange_denotes (h : a.Denotes S) {lo hi : Nat} (hle : lo ≤ hi)
    (hhi : hi < chunkSize) : (a.insertRange lo hi).1.Denotes (S ∪ Finset.Icc lo hi) := by
  have hset : S ∪ Finset.Icc lo hi = S \ Finset.Icc lo hi ∪ Finset.Icc lo hi :=
    (Finset.sdiff_union_self_eq_union).symm
  rw [hset]
  refine splice_denotes h (List.range' lo (hi - lo + 1)) List.pairwise_lt_range' ?_
    (Finset.Subset.refl _) hle hhi ?_
  · intro x
    rw [List.mem_range'_1, Finset.mem_Icc]
    omega
  · simp only [insertRange, window_eq h.1 hle, toList, Array.toList_append]
    rw [toList_extract_zero, toList_extract_size, take_below h.1, drop_rank h.1,
      Array.toList_range']
    rfl

theorem eraseRange_denotes (h : a.Denotes S) {lo hi : Nat} (hle : lo ≤ hi)
    (hhi : hi < chunkSize) :
    (a.eraseRange lo hi).1.Denotes (S \ Finset.Icc lo hi) ∧
      (a.eraseRange lo hi).2 = (S ∩ Finset.Icc lo hi).card := by
  constructor
  · rw [← Finset.union_empty (S \ Finset.Icc lo hi)]
    refine splice_denotes h [] List.Pairwise.nil (by simp) (Finset.empty_subset _) hle
      hhi ?_
    simp only [eraseRange, window_eq h.1 hle, toList, Array.toList_append]
    rw [toList_extract_zero, toList_extract_size, take_below h.1, drop_rank h.1, List.append_nil]
    rfl
  · simp only [eraseRange, window_eq h.1 hle]
    exact rank_sub_below h hle

theorem getElem?_below (h : a.Denotes S) (p : Nat) :
    a.values[a.below p]? = some p ↔ p ∈ S := by
  have hhead : a.values[a.below p]? = (a.toList.filter (p ≤ ·)).head? := by
    rw [← drop_below h.1, List.head?_drop, toList, Array.getElem?_toList]
  have hsorted : (a.toList.filter (p ≤ ·)).Pairwise (· < ·) := h.1.1.filter _
  have hmem : p ∈ a.toList.filter (p ≤ ·) ↔ p ∈ S := by
    rw [List.mem_filter, h.mem_toList, decide_eq_true_eq]
    exact and_iff_left (Nat.le_refl p)
  rw [hhead, ← hmem]
  constructor
  · intro hp
    exact List.mem_of_head? hp
  · intro hp
    cases hlist : a.toList.filter (p ≤ ·) with
    | nil =>
      rw [hlist] at hp
      exact absurd hp List.not_mem_nil
    | cons x rest =>
      have hx : x ∈ a.toList.filter (p ≤ ·) := by rw [hlist]; exact List.mem_cons_self
      have hle := (List.mem_filter.1 hx).2
      rw [decide_eq_true_eq] at hle
      rw [hlist, List.pairwise_cons] at hsorted
      rw [hlist, List.mem_cons] at hp
      rcases hp with hp | hp
      · rw [hp]
        rfl
      · have hlt := hsorted.1 p hp
        omega

theorem found_iff (h : a.Denotes S) (p : Nat) :
    (a.values[a.below p]? == some p) = decide (p ∈ S) := by
  rw [Bool.eq_iff_iff, beq_iff_eq, decide_eq_true_eq, getElem?_below h]

theorem insert_denotes (h : a.Denotes S) {p : Nat} (hp : p < chunkSize) :
    (a.insert p).1.Denotes (Insert.insert p S) ∧ (a.insert p).2 = decide (p ∉ S) := by
  rw [insert]
  simp only [found_iff h p, decide_eq_true_eq]
  by_cases hmem : p ∈ S
  · rw [if_pos hmem, Finset.insert_eq_of_mem hmem]
    exact ⟨h, by simp [hmem]⟩
  · rw [if_neg hmem]
    refine ⟨?_, by simp [hmem]⟩
    have hset : Insert.insert p S = S \ Finset.Icc p p ∪ {p} := by
      ext x
      simp only [Finset.mem_insert, Finset.mem_union, Finset.mem_sdiff, Finset.mem_Icc,
        Finset.mem_singleton]
      by_cases hx : x = p
      · simp [hx]
      · simp only [hx, false_or, or_false]
        constructor
        · intro hxS
          exact ⟨hxS, by omega⟩
        · intro hxS
          exact hxS.1
    have hfilter : a.toList.filter (p ≤ ·) = a.toList.filter (p < ·) := by
      refine List.filter_congr fun x hx => ?_
      rw [decide_eq_decide]
      have hne : x ≠ p := fun hxp => hmem (by rw [← hxp]; exact h.mem_toList.1 hx)
      omega
    rw [hset]
    refine splice_denotes h [p] (List.pairwise_singleton _ _) (by simp) (by simp)
      (Nat.le_refl p) hp ?_
    have hlist : (a.values.insertIdxIfInBounds (a.below p) p).toList =
        a.toList.take (a.below p) ++ p :: a.toList.drop (a.below p) :=
      toList_insertIdxIfInBounds p (below_le_size p)
    rw [toList, hlist, take_below h.1, drop_below h.1, hfilter, List.append_assoc]
    rfl

theorem erase_denotes (h : a.Denotes S) {p : Nat} :
    (a.erase p).1.Denotes (S.erase p) ∧ (a.erase p).2 = decide (p ∈ S) := by
  rw [erase]
  simp only [found_iff h p, decide_eq_true_eq]
  by_cases hmem : p ∈ S
  · rw [if_pos hmem]
    refine ⟨?_, by simp [hmem]⟩
    have hset : S.erase p = S \ Finset.Icc p p ∪ ∅ := by
      rw [Finset.union_empty, Finset.Icc_self, Finset.erase_eq]
    have hfilter : (a.toList.filter (p ≤ ·)).tail = a.toList.filter (p < ·) := by
      have hsorted : (a.toList.filter (p ≤ ·)).Pairwise (· < ·) := h.1.1.filter _
      have hhead := (getElem?_below h p).2 hmem
      rw [← Array.getElem?_toList] at hhead
      change a.toList[a.below p]? = some p at hhead
      rw [← List.head?_drop, drop_below h.1] at hhead
      cases hlist : a.toList.filter (p ≤ ·) with
      | nil =>
        rw [hlist] at hhead
        exact absurd hhead (by simp)
      | cons x rest =>
        rw [hlist, List.head?_cons, Option.some_inj] at hhead
        subst hhead
        rw [hlist] at hsorted
        refine (List.pairwise_cons.1 hsorted).2.eq_of_mem_iff (h.1.1.filter _) fun y => ?_
        have hy : y ∈ a.toList.filter (x ≤ ·) ↔ y = x ∨ y ∈ rest := by
          rw [hlist, List.mem_cons]
        rw [List.mem_filter, decide_eq_true_eq] at hy
        rw [List.mem_filter, decide_eq_true_eq]
        have hlt := (List.pairwise_cons.1 hsorted).1 y
        constructor
        · intro hrest
          exact ⟨(hy.2 (Or.inr hrest)).1, hlt hrest⟩
        · intro hin
          rcases hy.1 ⟨hin.1, hin.2.le⟩ with heq | hrest
          · omega
          · exact hrest
    rw [hset]
    refine splice_denotes h [] List.Pairwise.nil (by simp) (Finset.empty_subset _)
      (Nat.le_refl p) (h.lt hmem) ?_
    have hlt : a.below p < a.values.size := by
      obtain ⟨hlt, -⟩ := Array.getElem?_eq_some_iff.1 ((getElem?_below h p).2 hmem)
      exact hlt
    have hlist : (a.values.eraseIdxIfInBounds (a.below p)).toList =
        a.toList.take (a.below p) ++ (a.toList.drop (a.below p)).tail := by
      rw [toList_eraseIdxIfInBounds hlt, List.tail_drop]
      rfl
    rw [toList, hlist, take_below h.1, drop_below h.1, hfilter, List.append_nil]
  · rw [if_neg hmem, Finset.erase_eq_of_notMem hmem]
    exact ⟨h, by simp [hmem]⟩

theorem append_denotes (h : a.Denotes S) {p : Nat} (hp : p < chunkSize) (hlast : ∀ q ∈ S, q < p) :
    (a.append p).Denotes (Insert.insert p S) := by
  have hlist : (a.append p).toList = a.toList ++ [p] := by simp [append, toList]
  refine denotes_of_list ?_ ?_ ?_ hlist
  · rw [List.pairwise_append]
    refine ⟨h.1.1, List.pairwise_singleton _ _, fun x hx y hy => ?_⟩
    rw [List.mem_singleton.1 hy]
    exact hlast x (h.mem_toList.1 hx)
  · intro x hx
    rcases Finset.mem_insert.1 hx with hx | hx
    · rwa [hx]
    · exact h.lt hx
  · intro x
    rw [List.mem_append, List.mem_singleton, h.mem_toList, Finset.mem_insert, or_comm]

theorem max?_greatest (h : a.Denotes S) : Greatest (· ∈ S) a.max? := by
  have hlast : a.max? = a.toList.getLast? := by
    rw [max?, toList, Array.getLast?_toList]
  rw [hlast]
  rcases List.eq_nil_or_concat a.toList with hnil | ⟨front, x, hlist⟩
  · rw [hnil]
    intro p hp
    rw [← h.mem_toList, hnil] at hp
    exact absurd hp List.not_mem_nil
  · rw [List.concat_eq_append] at hlist
    have hsorted := h.1.1
    rw [hlist, List.pairwise_append] at hsorted
    rw [hlist, List.getLast?_concat]
    refine ⟨h.mem_toList.1 (by rw [hlist]; simp), fun p hp => ?_⟩
    have hin := h.mem_toList.2 hp
    rw [hlist, List.mem_append, List.mem_singleton] at hin
    rcases hin with hp | hp
    · exact (hsorted.2.2 p hp x (List.mem_singleton.2 rfl)).le
    · exact hp.le

theorem sublist_denotes (h : a.Denotes S) {list : List Nat} (hsub : list.Sublist a.toList)
    {b : SortedArray} (hb : b.toList = list) : b.Denotes list.toFinset := by
  refine denotes_of_list (List.Pairwise.sublist hsub h.1.1) (fun p hp => ?_) (fun p => ?_) hb
  · exact h.1.2 p (hsub.mem (List.mem_toFinset.1 hp))
  · exact List.mem_toFinset.symm

theorem dropSmallest_denotes (h : a.Denotes S) (n : Nat) :
    (a.dropSmallest n).Denotes ((S.sort (· ≤ ·)).drop n).toFinset := by
  rw [← h.toList_eq_sort]
  exact sublist_denotes h (List.drop_sublist n _) (toList_extract_size n)

theorem dropBiggest_denotes (h : a.Denotes S) (n : Nat) :
    (a.dropBiggest n).Denotes ((S.sort (· ≤ ·)).take (S.card - n)).toFinset := by
  have hsize : a.values.size = S.card := h.size
  rw [← h.toList_eq_sort, ← hsize]
  exact sublist_denotes h (List.take_sublist _ _) (toList_extract_zero _)

theorem filter_denotes (h : a.Denotes S) (keep : Nat → Bool) :
    (a.filter keep).Denotes (S.filter (keep · = true)) := by
  have hlist : (a.filter keep).toList = a.toList.filter keep := by simp [filter, toList]
  refine denotes_of_list (h.1.1.filter keep) (fun p hp => ?_) (fun p => ?_) hlist
  · exact h.lt (Finset.mem_filter.1 hp).1
  · rw [List.mem_filter, h.mem_toList, Finset.mem_filter]

theorem breaks_eq_card {x : Nat} {rest : List Nat} (hsorted : (x :: rest).Pairwise (· < ·)) :
    runCount.breaks (x :: rest) + 1 = (starts (x :: rest).toFinset).card := by
  induction rest generalizing x with
  | nil =>
    have hstarts : starts [x].toFinset = {x} := by
      ext p
      rw [mem_starts]
      simp only [List.toFinset_cons, List.toFinset_nil, insert_empty_eq, Finset.mem_singleton]
      omega
    rw [hstarts, Finset.card_singleton]
    rfl
  | cons y rest ih =>
    obtain ⟨hbelow, hrest⟩ := List.pairwise_cons.1 hsorted
    have hin : y ∈ (y :: rest).toFinset := List.mem_toFinset.2 List.mem_cons_self
    have hleast : ∀ p ∈ (y :: rest).toFinset, y ≤ p := fun p hp => by
      rcases List.mem_cons.1 (List.mem_toFinset.1 hp) with rfl | hp
      · exact Nat.le_refl _
      · exact ((List.pairwise_cons.1 hrest).1 p hp).le
    rw [List.toFinset_cons, card_starts_insert hleast hin (hbelow y List.mem_cons_self), ← ih hrest,
      runCount.breaks]
    omega

theorem Denotes.runCount (h : a.Denotes S) : a.runCount = (starts S).card := by
  rw [SortedArray.runCount, h.isEmpty]
  split
  · rename_i hempty
    rw [decide_eq_true_eq] at hempty
    rw [hempty]
    rfl
  · rename_i hne
    cases hlist : a.toList with
    | nil =>
      rw [decide_eq_true_eq, ← h.toFinset, hlist] at hne
      exact absurd rfl hne
    | cons x rest =>
      have hsorted := h.1.1
      rw [hlist] at hsorted
      rw [breaks_eq_card hsorted, ← hlist, h.toFinset]

end SortedArray

end ChunkedSet
