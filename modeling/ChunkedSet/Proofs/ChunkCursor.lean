import ChunkedSet.Cursor.Chunk
import ChunkedSet.Proofs.Chunk
import ChunkedSet.Proofs.SortedQueue

/-!
# Cursors over arrays and blocks

What a cursor over one chunk has left, and what each step leaves of it.
-/

namespace ChunkedSet

variable {xs : List Nat}

namespace ArrayCursor

/-- The cursor has the values of `xs` left, which stand between its two indices. -/
structure Holds (c : ArrayCursor) (xs : List Nat) : Prop where
  valid : SortedArray.Valid ⟨c.values⟩
  spans : Spans c.values c.front c.back xs

variable {c : ArrayCursor}

theorem holds_ofSorted {a : SortedArray} (h : a.Valid) : (ofSorted a).Holds a.toList :=
  ⟨h, .all a.values⟩

theorem Holds.sorted (h : c.Holds xs) : xs.Pairwise (· < ·) :=
  List.Pairwise.sublist h.spans.sublist h.valid.1

theorem Holds.lt (h : c.Holds xs) {p : Nat} (hp : p ∈ xs) : p < chunkSize :=
  h.valid.2 p (h.spans.sublist.subset hp)

theorem Holds.size (h : c.Holds xs) : c.size = xs.length := by
  rw [ArrayCursor.size, h.spans.stop_eq, Nat.add_sub_cancel_left]

theorem Holds.lt_iff (h : c.Holds xs) (n : Nat) : c.front + n < c.back ↔ n < xs.length := by
  have := h.spans.stop_eq
  omega

theorem Holds.drop (h : c.Holds xs) {n : Nat} (hn : n ≤ xs.length) :
    Holds { c with front := c.front + n } (xs.drop n) :=
  ⟨h.valid, h.spans.drop hn⟩

theorem Holds.take (h : c.Holds xs) {n : Nat} (hn : n ≤ xs.length) :
    Holds { c with back := c.front + n } (xs.take n) :=
  ⟨h.valid, h.spans.take hn⟩

theorem Holds.peek? (h : c.Holds xs) : c.peek? = xs.head? := by
  have hlt := h.lt_iff 0
  rw [Nat.add_zero] at hlt
  rw [ArrayCursor.peek?, List.head?_eq_getElem?]
  split_ifs with hcase
  · exact h.spans.getElem? (hlt.1 hcase)
  · exact (List.getElem?_eq_none (Nat.not_lt.1 (hlt.not.1 hcase))).symm

theorem Holds.next (h : c.Holds xs) : c.next.1 = xs.head? ∧ c.next.2.Holds xs.tail := by
  have hlt := h.lt_iff 0
  have hpeek := h.peek?
  rw [Nat.add_zero] at hlt
  rw [ArrayCursor.next]
  rw [ArrayCursor.peek?] at hpeek
  split_ifs at hpeek ⊢ with hcase
  · rw [← List.drop_one]
    exact ⟨hpeek, h.drop (hlt.1 hcase)⟩
  · have hnil := List.head?_eq_none_iff.1 hpeek.symm
    subst hnil
    exact ⟨rfl, h⟩

theorem Holds.peekBack? (h : c.Holds xs) : c.peekBack? = xs.getLast? := by
  have hstop := h.spans.stop_eq
  rw [ArrayCursor.peekBack?, List.getLast?_eq_getElem?]
  split_ifs with hcase
  · have hback : c.back - 1 = c.front + (xs.length - 1) := by omega
    rw [hback, h.spans.getElem? (by omega)]
  · rw [List.getElem?_eq_none (by omega)]

theorem Holds.nextBack (h : c.Holds xs) :
    c.nextBack.1 = xs.getLast? ∧ c.nextBack.2.Holds xs.dropLast := by
  have hstop := h.spans.stop_eq
  have hpeek := h.peekBack?
  rw [ArrayCursor.nextBack]
  rw [ArrayCursor.peekBack?] at hpeek
  split_ifs at hpeek ⊢ with hcase
  · have hback : c.back - 1 = c.front + (xs.length - 1) := by omega
    rw [List.dropLast_eq_take]
    exact ⟨hpeek, hback ▸ h.take (Nat.sub_le _ _)⟩
  · have hnil := List.getLast?_eq_none_iff.1 hpeek.symm
    subst hnil
    exact ⟨rfl, h⟩

theorem Holds.nth (h : c.Holds xs) (n : Nat) :
    (c.nth n).1 = xs[n]? ∧ (c.nth n).2.Holds (xs.drop (n + 1)) := by
  rw [ArrayCursor.nth]
  split_ifs with hcase
  · have hn := (h.lt_iff n).1 hcase
    have hnext := (h.drop hn.le).next
    rwa [List.head?_drop, List.tail_drop] at hnext
  · have hn := Nat.not_lt.1 ((h.lt_iff n).not.1 hcase)
    have hend := h.drop (Nat.le_refl xs.length)
    rw [← h.spans.stop_eq, List.drop_length] at hend
    rw [List.getElem?_eq_none hn, List.drop_eq_nil_of_le (by omega)]
    exact ⟨rfl, hend⟩

theorem Holds.advanceTo (h : c.Holds xs) (p : Nat) :
    (c.advanceTo p).Holds (xs.filter (p ≤ ·)) := by
  have hleading : ∀ x y : Nat, x < y → decide (y < p) = true → decide (x < p) = true := by
    simp only [decide_eq_true_eq]
    omega
  have hdrop := h.drop (List.length_filter_le (· < p) xs)
  rw [drop_length_filter h.sorted hleading] at hdrop
  rw [ArrayCursor.advanceTo, h.spans.partitionPointIn_eq h.valid.1 hleading]
  simpa only [← decide_not, Nat.not_lt] using hdrop

theorem Holds.advanceBackTo (h : c.Holds xs) (p : Nat) :
    (c.advanceBackTo p).Holds (xs.filter (· ≤ p)) := by
  have hleading : ∀ x y : Nat, x < y → decide (y ≤ p) = true → decide (x ≤ p) = true := by
    simp only [decide_eq_true_eq]
    omega
  have htake := h.take (List.length_filter_le (· ≤ p) xs)
  rw [take_length_filter h.sorted hleading] at htake
  rwa [ArrayCursor.advanceBackTo, h.spans.partitionPointIn_eq h.valid.1 hleading]

end ArrayCursor

namespace BlockCursor

structure Holds (c : BlockCursor) (xs : List Nat) : Prop where
  front_le : c.front ≤ chunkSize
  back_le : c.back ≤ chunkSize
  lists : Lists xs fun p => c.front ≤ p ∧ p < c.back ∧ c.words.contains p = true

variable {c : BlockCursor}

theorem holds_ofBlock (b : Block) : (ofBlock b).Holds b.positions.toList := by
  refine ⟨Nat.zero_le _, Nat.le_refl _, Words.pairwise_positions b.words, fun p => ?_⟩
  have hmem : p ∈ b.positions.toList ↔ b.words.contains p = true := Words.mem_positions
  exact hmem.trans ⟨fun hp => ⟨Nat.zero_le p, Words.lt_of_contains hp, hp⟩, fun hp => hp.2.2⟩

theorem Holds.sorted (h : c.Holds xs) : xs.Pairwise (· < ·) := h.lists.1

theorem Holds.lt (h : c.Holds xs) {p : Nat} (hp : p ∈ xs) : p < chunkSize :=
  ((h.lists.2 p).1 hp).2.1.trans_le h.back_le

theorem Holds.peek? (h : c.Holds xs) : c.peek? = xs.head? :=
  (Words.firstBetween_least h.back_le).unique h.lists.head?

theorem Holds.peekBack? (h : c.Holds xs) : c.peekBack? = xs.getLast? :=
  Words.lastBetween_greatest.unique h.lists.getLast?

theorem Holds.next (h : c.Holds xs) : c.next.1 = xs.head? ∧ c.next.2.Holds xs.tail := by
  have htail := h.lists.tail
  rw [BlockCursor.next, h.peek?]
  cases hhead : xs.head? with
  | none =>
    obtain rfl := List.head?_eq_none_iff.1 hhead
    refine ⟨rfl, h.back_le, h.back_le, List.Pairwise.nil, fun p => ?_⟩
    simp only [List.tail_nil, List.not_mem_nil, false_iff]
    omega
  | some x =>
    have hx := (h.lists.2 x).1 (List.mem_of_mem_head? hhead)
    refine ⟨rfl, hx.2.1.trans_le h.back_le, h.back_le, htail.congr fun p => ?_⟩
    simp only [hhead, Option.mem_def, Option.some_inj, forall_eq']
    grind

theorem Holds.nextBack (h : c.Holds xs) :
    c.nextBack.1 = xs.getLast? ∧ c.nextBack.2.Holds xs.dropLast := by
  have hinit := h.lists.dropLast
  rw [BlockCursor.nextBack, h.peekBack?]
  cases hlast : xs.getLast? with
  | none =>
    obtain rfl := List.getLast?_eq_none_iff.1 hlast
    refine ⟨rfl, h.front_le, h.front_le, List.Pairwise.nil, fun p => ?_⟩
    simp only [List.dropLast_nil, List.not_mem_nil, false_iff]
    omega
  | some x =>
    have hx := (h.lists.2 x).1 (List.mem_of_getLast? hlast)
    refine ⟨rfl, h.front_le, hx.2.1.le.trans h.back_le, hinit.congr fun p => ?_⟩
    simp only [hlast, Option.mem_def, Option.some_inj, forall_eq']
    grind

theorem Holds.advanceTo (h : c.Holds xs) {p : Nat} (hp : p < chunkSize) :
    (c.advanceTo p).Holds (xs.filter (p ≤ ·)) := by
  refine ⟨Nat.max_le.2 ⟨h.front_le, hp.le⟩, h.back_le, (h.lists.filter _).congr fun q => ?_⟩
  simp only [BlockCursor.advanceTo, decide_eq_true_eq]
  grind

theorem Holds.advanceBackTo (h : c.Holds xs) (p : Nat) :
    (c.advanceBackTo p).Holds (xs.filter (· ≤ p)) := by
  refine ⟨h.front_le, (Nat.min_le_left _ _).trans h.back_le, (h.lists.filter _).congr fun q => ?_⟩
  simp only [BlockCursor.advanceBackTo, decide_eq_true_eq]
  grind

theorem Holds.size (h : c.Holds xs) : c.size = xs.length := by
  rw [BlockCursor.size]
  split_ifs with hcase
  · have hnone : ∀ p, p ∉ xs := by
      intro p hp
      have hp := (h.lists.2 p).1 hp
      omega
    rw [List.eq_nil_iff_forall_not_mem.2 hnone, List.length_nil]
  · rw [Words.rangeSize_eq_card]
    refine (Lists.length_eq_card (h.lists.congr fun p => ?_)).symm
    rw [Finset.mem_inter, Finset.mem_Icc, Words.mem_support]
    grind

end BlockCursor

end ChunkedSet
