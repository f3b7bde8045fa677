import ChunkedSet.Proofs.Rank
import ChunkedSet.Proofs.RankedSet
import ChunkedSet.Proofs.SetSizes
import ChunkedSet.Proofs.SortedQueue

/-!
# Selection and rank

Each representation selects from the listing of its positions, and so does a set from that of its
values. In a strictly increasing list an element stands behind as many others as are smaller, so
that selection and rank undo each other.
-/

namespace ChunkedSet

open Finset

/-! Places in a sorted list. -/

namespace Lists

variable {xs : List Nat} {P : Nat → Prop} {n i v w : Nat}

theorem lt_iff_place_lt (h : Lists xs P) (hv : xs[i]? = some v) (hw : xs[n]? = some w) :
    v < w ↔ i < n := by
  obtain ⟨hi, rfl⟩ := List.getElem?_eq_some_iff.1 hv
  obtain ⟨hn, rfl⟩ := List.getElem?_eq_some_iff.1 hw
  exact h.1.sortedLT.getElem_lt_getElem_iff

theorem length_filter_lt (h : Lists xs P) (hv : xs[n]? = some v) :
    (xs.filter (· < v)).length = n := by
  have hn : n < xs.length := (List.getElem?_eq_some_iff.1 hv).1
  have htake : xs.take n = xs.filter (· < v) := take_eq_filter fun i x hx => by
    rw [decide_eq_decide]
    exact h.lt_iff_place_lt hx hv
  rw [← htake, List.length_take, Nat.min_eq_left hn.le]

theorem getElem?_eq_some_iff (h : Lists xs P) :
    xs[n]? = some v ↔ P v ∧ (xs.filter (· < v)).length = n := by
  constructor
  · intro hv
    exact ⟨(h.2 v).1 (List.mem_of_getElem? hv), h.length_filter_lt hv⟩
  · rintro ⟨hv, rfl⟩
    obtain ⟨i, hi⟩ := List.getElem?_of_mem ((h.2 v).2 hv)
    rwa [h.length_filter_lt hi]

end Lists

/-! Chunks. -/

theorem Word.getElem?_bits {w : UInt64} {n : Nat} (hn : n < popcount w) :
    (bits w)[n]? = some (select w n) := by
  have hne : bits (dropTimes dropLowest n w) ≠ [] := by
    rw [bits_dropTimes_lowest, Ne, List.drop_eq_nil_iff, length_bits]
    omega
  have hlisted : Lists (bits (dropTimes dropLowest n w))
      (has (dropTimes dropLowest n w) · = true) := ⟨pairwise_bits _, fun i => mem_bits⟩
  have hword : dropTimes dropLowest n w ≠ 0 := fun hzero => hne (bits_eq_nil.2 hzero)
  have hleast : Least (has (dropTimes dropLowest n w) · = true) (some (select w n)) := by
    refine ⟨has_lowest hword, fun i hi => ?_⟩
    by_contra hlt
    exact Bool.false_ne_true ((has_below_lowest hword (Nat.not_le.1 hlt)).symm.trans hi)
  rw [hleast.unique hlisted.head?, bits_dropTimes_lowest, List.head?_drop]

theorem Words.selectIn_eq (list : List UInt64) (k n : Nat) :
    selectIn list k n = (bitsFrom list (k * 64))[n]? := by
  induction list generalizing k n with
  | nil => rfl
  | cons w rest ih =>
    have hlength : ((Word.bits w).map (k * 64 + ·)).length = Word.popcount w := by
      rw [List.length_map, Word.length_bits]
    rw [selectIn, bitsFrom]
    split
    · rename_i hlt
      rw [List.getElem?_append_left (by omega), List.getElem?_map, Word.getElem?_bits hlt]
      rfl
    · rename_i hge
      rw [ih, List.getElem?_append_right (by omega), hlength, Nat.succ_mul]

theorem RunList.selectIn_eq (runs : List Run) (n : Nat) : selectIn runs n = (listed runs)[n]? := by
  induction runs generalizing n with
  | nil => rfl
  | cons r rest ih =>
    have hlisted : listed (r :: rest) = List.range' r.first r.size ++ listed rest := rfl
    have hlength : (List.range' r.first r.size).length = r.size := List.length_range'
    rw [selectIn, hlisted]
    split
    · rename_i hlt
      rw [List.getElem?_append_left (by omega), List.getElem?_range' hlt, Nat.one_mul]
    · rename_i hge
      rw [ih, List.getElem?_append_right (by omega), hlength]

theorem Chunk.select_eq (c : Chunk) (n : Nat) : c.select n = c.toList[n]? := by
  cases c with
  | array a => exact Array.getElem?_toList.symm
  | block b =>
    have hlist : (block b).toList = Words.bitsFrom b.words.toList 0 :=
      Words.positions_eq_bitsFrom b.words
    rw [hlist]
    exact Words.selectIn_eq b.words.toList 0 n
  | runs l =>
    have hlist : (runs l).toList = RunList.listed l.toList := RunList.toList_toSorted l
    rw [hlist]
    exact RunList.selectIn_eq l.toList n

theorem Chunk.Valid.length_toList {c : Chunk} (h : c.Valid) : c.toList.length = c.size := by
  obtain ⟨S, hden⟩ := h.denotes
  rw [hden.toList_eq_sort, length_sort, hden.size]

theorem Chunk.Valid.size_le {c : Chunk} (h : c.Valid) : c.size ≤ chunkSize := by
  obtain ⟨S, hden⟩ := h.denotes
  rw [hden.size]
  exact hden.card_le

/-! Sets. -/

section

variable {v k q : Nat}

theorem valueAt_le_of_lt (hk : k < keyOf v) (hq : q < chunkSize) : valueAt k q ≤ v := by
  simp only [valueAt, keyOf, chunkSize] at *
  omega

theorem lt_valueAt_of_lt (hk : keyOf v < k) (q : Nat) : v < valueAt k q := by
  simp only [valueAt, keyOf] at *
  omega

theorem valueAt_keyOf_le_iff : valueAt (keyOf v) q ≤ v ↔ q ≤ positionOf v := by
  simp only [valueAt, keyOf, positionOf]
  omega

end

theorem Entry.length_toList {e : Entry} (h : e.chunk.Valid) : e.toList.length = e.size := by
  rw [toList, List.length_map, h.length_toList]
  rfl

namespace IntSet

variable {P : Chunk → Prop} {F : Nat → Finset Nat} {s : IntSet} {n v : Nat}

theorem Valid.lists (h : s.Valid) : Lists s.toList (· ∈ s) :=
  ⟨h.denotes.pairwise_toList, fun _ => h.denotes.mem_toList⟩

theorem Valid.length_filter (h : s.Valid) (q : Nat → Bool) :
    (s.toList.filter q).length = #{u ∈ range domainSize | u ∈ s ∧ q u = true} := by
  refine ((h.lists.filter q).congr fun u => ?_).length_eq_card
  rw [mem_filter, mem_range]
  exact (and_iff_right_of_imp fun hu => h.lt_domainSize hu.1).symm

theorem Valid.length_toList (h : s.Valid) : s.toList.length = s.size := by
  have hall := h.length_filter fun _ => true
  simp only [List.filter_true, and_true] at hall
  rw [hall, h.size_eq_card]

theorem selectIn_eq_getElem? {xs : List Entry} (hxs : ∀ e ∈ xs, e.chunk.Valid) (n : Nat) :
    selectIn xs n = (xs.flatMap Entry.toList)[n]? := by
  induction xs generalizing n with
  | nil => rfl
  | cons e rest ih =>
    have he := hxs e List.mem_cons_self
    have hlength := Entry.length_toList he
    rw [selectIn, List.flatMap_cons]
    split
    · rw [ih fun f hf => hxs f (List.mem_cons_of_mem e hf), List.getElem?_append_right (by omega),
        hlength]
    · rename_i hlt
      have hsize : e.size ≤ chunkSize := he.size_le
      rw [List.getElem?_append_left (by omega), Nat.mod_eq_of_lt (by omega), Chunk.select_eq,
        Entry.toList, List.getElem?_map]

theorem Valid.chunk_valid (h : s.Valid) : ∀ e ∈ s.entries.toList, e.chunk.Valid :=
  fun e he => (h.2 e he).2.1

theorem Valid.select_eq (h : s.Valid) (n : Nat) : s.select n = s.toList[n]? :=
  selectIn_eq_getElem? h.chunk_valid n

theorem Denotes.sizeBefore_below (h : s.Denotes P F) {k : Nat} (hk : k ≤ chunkSize) :
    s.sizeBefore (s.below k) = ∑ i ∈ range k, #(F i) := by
  have hfront := Segment.filter_lt h hk
  have hsizes : (s.entries.toList.filter (·.key < k)).map Entry.size =
      (s.entries.toList.filter (·.key < k)).map fun e => #(F e.key) := by
    apply List.map_congr_left
    intro e he
    exact (hfront.element e he).2.2.size_eq
  rw [sizeBefore, below, Segment.take_partitionPoint_lt h, hsizes,
    hfront.sum_eq (g := fun i => #(F i)) fun i hi => by rw [hi, card_empty], Nat.Ico_zero_eq_range]

theorem Denotes.rank_eq_sum (h : s.Denotes P F) (hv : v < domainSize) :
    s.rank v = ∑ k ∈ range (keyOf v), #(F k) + #(F (keyOf v) ∩ Icc 0 (positionOf v)) := by
  have hkey := keyOf_lt hv
  rw [rank, foldl_extract_size, h.sizeBefore_below hkey.le]
  rcases Segment.getElem?_place h (keyOf v) with ⟨e, he, hget, hparts⟩ | ⟨hget, hne, -⟩
  · have hden := (h.element e (by rw [hparts]; simp)).2.2.1
    rw [he] at hden
    rw [below, hget]
    dsimp only
    rw [if_pos he, Chunk.rank_eq_card hden (positionOf_lt v)]
  · rw [h.absent _ (Nat.zero_le _) hkey hne, empty_inter, card_empty, Nat.add_zero, below]
    split
    · rename_i e hcase
      exact if_neg (hget e hcase)
    · rfl

/-- Of the values up to `v`, all of the smaller keys count, and those of its own key up to its
position. -/
theorem Denotes.card_upTo (h : s.Denotes P F) (hv : v < domainSize) :
    #{u ∈ range domainSize | u ∈ s ∧ u ≤ v} =
      ∑ k ∈ range (keyOf v), #(F k) + #(F (keyOf v) ∩ Icc 0 (positionOf v)) := by
  have hkey := keyOf_lt hv
  have hlt : ∀ k < chunkSize, ∀ q ∈ F k, q < chunkSize := by
    intro k hk q hq
    rw [← h.slots_eq hk, mem_slots] at hq
    exact hq.1
  have hsum : #{u ∈ range domainSize | u ∈ s ∧ u ≤ v} =
      ∑ k ∈ range chunkSize, #{q ∈ F k | valueAt k q ≤ v} := by
    apply card_eq_sum
    intro k hk q
    rw [mem_filter]
    constructor
    · rintro ⟨hq, hle⟩
      exact ⟨hlt k hk q hq, (h.mem_valueAt hk (hlt k hk q hq)).2 hq, hle⟩
    · rintro ⟨hq, hmem, hle⟩
      exact ⟨(h.mem_valueAt hk hq).1 hmem, hle⟩
  have hupTo : ∑ k ∈ range (keyOf v + 1), #{q ∈ F k | valueAt k q ≤ v} =
      ∑ k ∈ range chunkSize, #{q ∈ F k | valueAt k q ≤ v} := by
    apply sum_subset (range_subset_range.2 hkey)
    intro k _ hk
    rw [card_eq_zero, filter_eq_empty_iff]
    intro q _
    rw [mem_range, Nat.not_lt] at hk
    exact Nat.not_le.2 (lt_valueAt_of_lt hk q)
  have hfront : ∀ k ∈ range (keyOf v), #{q ∈ F k | valueAt k q ≤ v} = #(F k) := by
    intro k hk
    have hk := mem_range.1 hk
    rw [filter_true_of_mem]
    intro q hq
    exact valueAt_le_of_lt hk (hlt k (hk.trans hkey) q hq)
  have hown : ({q ∈ F (keyOf v) | valueAt (keyOf v) q ≤ v} : Finset Nat) =
      F (keyOf v) ∩ Icc 0 (positionOf v) := by
    ext q
    rw [mem_filter, mem_inter, mem_Icc, valueAt_keyOf_le_iff]
    exact and_congr_right fun _ => (and_iff_right (Nat.zero_le q)).symm
  rw [hsum, ← hupTo, sum_range_succ, sum_congr rfl hfront, hown]

theorem Valid.rank_eq_card (h : s.Valid) (hv : v < domainSize) :
    s.rank v = #{u ∈ range domainSize | u ∈ s ∧ u ≤ v} := by
  rw [h.denotes.rank_eq_sum hv, h.denotes.card_upTo hv]

theorem card_upTo_of_mem (hv : v ∈ s) (hlt : v < domainSize) :
    #{u ∈ range domainSize | u ∈ s ∧ u ≤ v} = #{u ∈ range domainSize | u ∈ s ∧ u < v} + 1 := by
  have hinsert : ({u ∈ range domainSize | u ∈ s ∧ u ≤ v} : Finset Nat) =
      Insert.insert v ({u ∈ range domainSize | u ∈ s ∧ u < v} : Finset Nat) := by
    ext u
    simp only [Finset.mem_insert, mem_filter, mem_range]
    constructor
    · rintro ⟨hu, hmem, hle⟩
      rcases Nat.eq_or_lt_of_le hle with heq | hlt
      · exact Or.inl heq
      · exact Or.inr ⟨hu, hmem, hlt⟩
    · rintro (rfl | ⟨hu, hmem, hlt⟩)
      · exact ⟨hlt, hv, Nat.le_refl u⟩
      · exact ⟨hu, hmem, hlt.le⟩
  rw [hinsert, card_insert_of_notMem (by simp)]

theorem Valid.select_eq_some_iff (h : s.Valid) :
    s.select n = some v ↔ v ∈ s ∧ #{u ∈ range domainSize | u ∈ s ∧ u < v} = n := by
  rw [h.select_eq, h.lists.getElem?_eq_some_iff, h.length_filter]
  simp only [decide_eq_true_eq]

theorem Valid.select_eq_none_iff (h : s.Valid) : s.select n = none ↔ s.size ≤ n := by
  rw [h.select_eq, List.getElem?_eq_none_iff, h.length_toList]

theorem Valid.rank_of_select (h : s.Valid) (hv : s.select n = some v) : s.rank v = n + 1 := by
  obtain ⟨hmem, hcount⟩ := h.select_eq_some_iff.1 hv
  have hlt := h.lt_domainSize hmem
  rw [h.rank_eq_card hlt, card_upTo_of_mem hmem hlt, hcount]

theorem Valid.select_rank_iff (h : s.Valid) (hv : v < domainSize) :
    s.select (s.rank v - 1) = some v ↔ v ∈ s := by
  rw [h.select_eq_some_iff]
  constructor
  · exact And.left
  · intro hmem
    refine ⟨hmem, ?_⟩
    rw [h.rank_eq_card hv, card_upTo_of_mem hmem hv, Nat.add_sub_cancel]

/-- The rank counts the values up to a given one, and selection finds the value before which there
are as many as asked for. The two undo each other on the values of the set and on no others. -/
theorem rank_select_correct (hs : s.Valid) :
    (∀ v < domainSize, s.rank v = #{u ∈ range domainSize | u ∈ s ∧ u ≤ v}) ∧
      (∀ n < s.size, ∃ v ∈ s, s.select n = some v ∧
        #{u ∈ range domainSize | u ∈ s ∧ u < v} = n ∧ s.rank v = n + 1) ∧
      (∀ n, s.size ≤ n → s.select n = none) ∧
      ∀ v < domainSize, s.select (s.rank v - 1) = some v ↔ v ∈ s := by
  refine ⟨fun v hv => hs.rank_eq_card hv, fun n hn => ?_, fun n => hs.select_eq_none_iff.2,
    fun v hv => hs.select_rank_iff hv⟩
  have hsome : s.select n ≠ none := fun hnone => Nat.not_le.2 hn (hs.select_eq_none_iff.1 hnone)
  obtain ⟨v, hv⟩ := Option.ne_none_iff_exists'.1 hsome
  obtain ⟨hmem, hcount⟩ := hs.select_eq_some_iff.1 hv
  exact ⟨v, hmem, hv, hcount, hs.rank_of_select hv⟩

theorem rank_select_correct_mixed :
    let s : IntSet := ⟨#[⟨0, .array ⟨#[1, 2, 65535]⟩⟩, ⟨7, .runs ⟨#[⟨0, 65535⟩]⟩⟩]⟩
    s.Valid ∧ s.size = 65539 ∧ s.select 65538 = some 524287 ∧ s.rank 524287 = 65539 ∧
      s.select 65539 = none ∧ (s.select (s.rank 9 - 1) = some 9 ↔ 9 ∈ s) := by
  intro s
  have hs : s.Valid := by decide
  have hsize : s.size = 65539 := by cbv
  have h := rank_select_correct hs
  exact ⟨hs, hsize, by cbv, by cbv, h.2.2.1 65539 hsize.le, h.2.2.2 9 (by decide)⟩

end IntSet

end ChunkedSet
