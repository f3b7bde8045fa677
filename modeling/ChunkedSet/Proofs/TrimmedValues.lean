import ChunkedSet.IntSet.Order
import ChunkedSet.Proofs.Selection

/-!
# The values that a trim leaves

Trimming a set drops values from one end of its listing, or keeps those at its front, whichever
entries the cut passes through.
-/

namespace ChunkedSet

open Finset

/-! Both sides of a cut through a sorted list. -/

namespace Lists

variable {xs : List Nat} {P : Nat → Prop} {n v : Nat}

theorem getElem?_place (h : Lists xs P) (hv : P v) : xs[(xs.filter (· < v)).length]? = some v :=
  h.getElem?_eq_some_iff.2 ⟨hv, rfl⟩

theorem mem_drop_iff (h : Lists xs P) :
    v ∈ xs.drop n ↔ P v ∧ n ≤ (xs.filter (· < v)).length := by
  constructor
  · intro hv
    obtain ⟨i, hi⟩ := List.getElem?_of_mem hv
    rw [List.getElem?_drop, h.getElem?_eq_some_iff] at hi
    exact ⟨hi.1, by omega⟩
  · rintro ⟨hv, hle⟩
    obtain ⟨i, hi⟩ := Nat.exists_eq_add_of_le hle
    have hget := h.getElem?_place hv
    rw [hi, ← List.getElem?_drop] at hget
    exact List.mem_of_getElem? hget

theorem mem_take_iff (h : Lists xs P) :
    v ∈ xs.take n ↔ P v ∧ (xs.filter (· < v)).length < n := by
  constructor
  · intro hv
    obtain ⟨i, hi⟩ := List.getElem?_of_mem hv
    rw [List.getElem?_take, Option.ite_none_right_eq_some, h.getElem?_eq_some_iff] at hi
    exact ⟨hi.2.1, by omega⟩
  · rintro ⟨hv, hlt⟩
    have hget := h.getElem?_place hv
    rw [← List.getElem?_take_of_lt hlt] at hget
    exact List.mem_of_getElem? hget

theorem length_sides (h : Lists xs P) (hv : P v) :
    (xs.filter (· < v)).length + 1 + (xs.filter (v < ·)).length = xs.length := by
  have hget := h.getElem?_place hv
  have hlt := (List.getElem?_eq_some_iff.1 hget).1
  have hdrop : xs.drop ((xs.filter (· < v)).length + 1) = xs.filter fun x => !decide (x ≤ v) := by
    refine drop_eq_filter fun i x hx => ?_
    have hiff := h.lt_iff_place_lt hget hx
    rw [decide_eq_decide]
    omega
  have hlength := congrArg List.length hdrop
  simp only [List.length_drop, ← decide_not, Nat.not_le] at hlength
  omega

theorem mem_take_sub_iff (h : Lists xs P) :
    v ∈ xs.take (xs.length - n) ↔ P v ∧ n ≤ (xs.filter (v < ·)).length := by
  rw [h.mem_take_iff]
  refine and_congr_right fun hv => ?_
  have hsides := h.length_sides hv
  omega

end Lists

theorem sort_toFinset_of_pairwise {xs : List Nat} (hxs : xs.Pairwise (· < ·)) :
    xs.toFinset.sort (· ≤ ·) = xs :=
  (List.toFinset_sort _ hxs.nodup).2 (hxs.imp Nat.le_of_lt)

/-! The entry at the cut. -/

namespace Entry

variable {e : Entry} {n : Nat}

theorem toList_dropSmallest (h : e.chunk.Valid) (n : Nat) :
    (⟨e.key, e.chunk.dropSmallest n⟩ : Entry).toList = e.toList.drop n := by
  obtain ⟨S, hden⟩ := h.denotes
  have hsorted := (S.sortedLT_sort.pairwise).drop (i := n)
  have hlist := (Chunk.dropSmallest_denotes hden n).1.toList_eq_sort
  rw [sort_toFinset_of_pairwise hsorted, ← hden.toList_eq_sort] at hlist
  rw [toList, toList, hlist, List.map_drop]
  rfl

theorem dropBiggest_valid (h : e.chunk.Valid) (n : Nat) : (e.chunk.dropBiggest n).Valid := by
  obtain ⟨S, hden⟩ := h.denotes
  exact (Chunk.dropBiggest_denotes hden n).1.valid

theorem toList_dropBiggest (h : e.chunk.Valid) (n : Nat) :
    (⟨e.key, e.chunk.dropBiggest n⟩ : Entry).toList = e.toList.take (e.size - n) := by
  obtain ⟨S, hden⟩ := h.denotes
  have hsorted := (S.sortedLT_sort.pairwise).take (i := #S - n)
  have hlist := (Chunk.dropBiggest_denotes hden n).1.toList_eq_sort
  have hsize : e.size = #S := hden.size
  rw [sort_toFinset_of_pairwise hsorted, ← hden.toList_eq_sort] at hlist
  rw [toList, toList, hlist, List.map_take, hsize]
  rfl

end Entry

namespace IntSet

variable {s : IntSet} {xs : List Entry} {n v : Nat}

theorem toList_dropIn (hxs : ∀ e ∈ xs, e.chunk.Valid) (n : Nat) :
    (dropIn Chunk.dropSmallest xs n).flatMap Entry.toList = (xs.flatMap Entry.toList).drop n := by
  induction xs generalizing n with
  | nil => simp [dropIn]
  | cons e rest ih =>
    have he := hxs e List.mem_cons_self
    have hlength := Entry.length_toList he
    rw [dropIn, List.flatMap_cons]
    split
    · have hnone : e.toList.drop n = [] := List.drop_eq_nil_of_le (by omega)
      rw [ih (fun f hf => hxs f (List.mem_cons_of_mem e hf)), List.drop_append, hnone,
        List.nil_append, hlength]
    · split
      · rw [List.flatMap_cons, Entry.toList_dropSmallest he, List.drop_append_of_le_length (by omega)]
      · rename_i hzero
        rw [Nat.eq_zero_of_not_pos hzero, List.drop_zero, List.flatMap_cons]

theorem toList_dropIn_reverse (hxs : ∀ e ∈ xs, e.chunk.Valid) (n : Nat) :
    (dropIn Chunk.dropBiggest xs n).reverse.flatMap Entry.toList =
      (xs.reverse.flatMap Entry.toList).take ((xs.reverse.flatMap Entry.toList).length - n) := by
  induction xs generalizing n with
  | nil => simp [dropIn]
  | cons e rest ih =>
    have he := hxs e List.mem_cons_self
    have hlength := Entry.length_toList he
    have hparts : (e :: rest).reverse.flatMap Entry.toList =
        rest.reverse.flatMap Entry.toList ++ e.toList := by simp
    rw [dropIn, hparts, List.length_append]
    split
    · rw [ih (fun f hf => hxs f (List.mem_cons_of_mem e hf)),
        List.take_append_of_le_length (by omega)]
      congr 1
      omega
    · split
      · rw [List.reverse_cons, List.flatMap_append, List.flatMap_singleton,
          Entry.toList_dropBiggest he, Nat.add_sub_assoc (by omega), List.take_length_add_append,
          hlength]
      · rename_i hzero
        rw [Nat.eq_zero_of_not_pos hzero, Nat.sub_zero, ← List.length_append, List.take_length,
          hparts]

theorem toList_limitIn (hxs : ∀ e ∈ xs, e.chunk.Valid) (n : Nat) (out : Array Entry) :
    (limitIn xs n out).toList.flatMap Entry.toList =
      out.toList.flatMap Entry.toList ++ (xs.flatMap Entry.toList).take n := by
  induction xs generalizing n out with
  | nil => simp [limitIn]
  | cons e rest ih =>
    have he := hxs e List.mem_cons_self
    have hrest := ih fun f hf => hxs f (List.mem_cons_of_mem e hf)
    have hlength := Entry.length_toList he
    rw [limitIn]
    split
    · rename_i hzero
      rw [hzero, List.take_zero, List.append_nil]
    · dsimp only
      rw [hrest, Array.toList_push, List.flatMap_append, List.flatMap_singleton, List.flatMap_cons,
        List.append_assoc]
      congr 1
      split
      · rename_i hlt
        have hvalid := Entry.dropBiggest_valid he (e.size - n)
        have hkept := Entry.toList_dropBiggest he (e.size - n)
        have hsize := Entry.length_toList (e := ⟨e.key, e.chunk.dropBiggest (e.size - n)⟩) hvalid
        rw [Nat.sub_sub_self hlt.le] at hkept
        rw [hkept, List.length_take, hlength, Nat.min_eq_left hlt.le] at hsize
        rw [hkept, ← hsize, Nat.sub_self, List.take_zero, List.append_nil, hsize,
          List.take_append_of_le_length (by omega)]
      · have hall : e.toList.take n = e.toList := List.take_of_length_le (by omega)
        rw [List.take_append, hall, hlength]

theorem Valid.toList_dropSmallest (h : s.Valid) (n : Nat) :
    (s.dropSmallest n).toList = s.toList.drop n :=
  toList_dropIn h.chunk_valid n

theorem Valid.toList_dropBiggest (h : s.Valid) (n : Nat) :
    (s.dropBiggest n).toList = s.toList.take (s.size - n) := by
  have hlist := toList_dropIn_reverse
    (fun e he => h.chunk_valid e (List.mem_reverse.1 he)) n
  rw [List.reverse_reverse] at hlist
  rw [← h.length_toList]
  exact hlist

theorem Valid.toList_limit (h : s.Valid) (n : Nat) : (s.limit n).toList = s.toList.take n :=
  toList_limitIn h.chunk_valid n #[]

theorem Valid.dropSmallest (h : s.Valid) (n : Nat) : (s.dropSmallest n).Valid := by
  obtain ⟨G, hG⟩ := dropSmallest_denotes Chunk.grade_valid h.denotes n
  exact hG.valid

theorem Valid.dropBiggest (h : s.Valid) (n : Nat) : (s.dropBiggest n).Valid := by
  obtain ⟨G, hG⟩ := dropBiggest_denotes Chunk.grade_valid h.denotes n
  exact hG.valid

theorem Valid.limit (h : s.Valid) (n : Nat) : (s.limit n).Valid := by
  obtain ⟨G, hG⟩ := limit_denotes Chunk.grade_valid h.denotes n
  exact hG.valid

theorem Valid.mem_dropSmallest (h : s.Valid) :
    v ∈ s.dropSmallest n ↔ v ∈ s ∧ n ≤ #{u ∈ range domainSize | u ∈ s ∧ u < v} := by
  rw [← (h.dropSmallest n).denotes.mem_toList, h.toList_dropSmallest, h.lists.mem_drop_iff,
    h.length_filter]
  simp only [decide_eq_true_eq]

theorem Valid.mem_dropBiggest (h : s.Valid) :
    v ∈ s.dropBiggest n ↔ v ∈ s ∧ n ≤ #{u ∈ range domainSize | u ∈ s ∧ v < u} := by
  rw [← (h.dropBiggest n).denotes.mem_toList, h.toList_dropBiggest, ← h.length_toList,
    h.lists.mem_take_sub_iff, h.length_filter]
  simp only [decide_eq_true_eq]

theorem Valid.mem_limit (h : s.Valid) :
    v ∈ s.limit n ↔ v ∈ s ∧ #{u ∈ range domainSize | u ∈ s ∧ u < v} < n := by
  rw [← (h.limit n).denotes.mem_toList, h.toList_limit, h.lists.mem_take_iff, h.length_filter]
  simp only [decide_eq_true_eq]

theorem exceedsIn_iff (xs : List Entry) {threshold seen : Nat} (hseen : seen ≤ threshold) :
    exceedsIn threshold xs seen = true ↔ threshold < seen + (xs.map Entry.size).sum := by
  induction xs generalizing seen with
  | nil => simpa [exceedsIn] using hseen
  | cons e rest ih =>
    rw [exceedsIn, List.map_cons, List.sum_cons]
    split
    · exact iff_of_true rfl (by omega)
    · rename_i hle
      rw [ih (Nat.not_lt.1 hle), Nat.add_assoc]

theorem sizeExceeds_iff (s : IntSet) (n : Nat) : s.sizeExceeds n = true ↔ n < s.size := by
  rw [sizeExceeds, exceedsIn_iff _ (Nat.zero_le n), size, ← Array.foldl_toList,
    Words.foldl_add_eq_sum]

/-- A trim drops as many values from its end as asked for, or all of them; the limit keeps those
that the trim from below drops; and a size is found to exceed a threshold without being known. -/
theorem trims_correct (hs : s.Valid) (n : Nat) :
    ((s.dropSmallest n).Valid ∧ (s.dropSmallest n).size = s.size - n ∧
      ∀ v, v ∈ s.dropSmallest n ↔ v ∈ s ∧ n ≤ #{u ∈ range domainSize | u ∈ s ∧ u < v}) ∧
    ((s.dropBiggest n).Valid ∧ (s.dropBiggest n).size = s.size - n ∧
      ∀ v, v ∈ s.dropBiggest n ↔ v ∈ s ∧ n ≤ #{u ∈ range domainSize | u ∈ s ∧ v < u}) ∧
    ((s.limit n).Valid ∧ (s.limit n).size = min n s.size ∧
      ∀ v, v ∈ s.limit n ↔ v ∈ s ∧ #{u ∈ range domainSize | u ∈ s ∧ u < v} < n) ∧
    (s.sizeExceeds n = true ↔ n < s.size) ∧
    ∀ v, (v ∈ s ↔ v ∈ s.limit n ∨ v ∈ s.dropSmallest n) ∧
      ¬(v ∈ s.limit n ∧ v ∈ s.dropSmallest n) := by
  have hsmallest := hs.dropSmallest n
  have hbiggest := hs.dropBiggest n
  have hlimit := hs.limit n
  refine ⟨⟨hsmallest, ?_, fun v => hs.mem_dropSmallest⟩, ⟨hbiggest, ?_, fun v => hs.mem_dropBiggest⟩,
    ⟨hlimit, ?_, fun v => hs.mem_limit⟩, sizeExceeds_iff s n, fun v => ?_⟩
  · rw [← hsmallest.length_toList, hs.toList_dropSmallest, List.length_drop, hs.length_toList]
  · rw [← hbiggest.length_toList, hs.toList_dropBiggest, List.length_take, hs.length_toList]
    omega
  · rw [← hlimit.length_toList, hs.toList_limit, List.length_take, hs.length_toList]
  · rw [hs.mem_limit, hs.mem_dropSmallest, ← and_or_left]
    constructor
    · exact (and_iff_left (Nat.lt_or_ge _ n)).symm
    · rintro ⟨⟨-, hlt⟩, -, hle⟩
      exact Nat.not_le.2 hlt hle

theorem trims_correct_mixed :
    let s : IntSet := ⟨#[⟨0, .array ⟨#[1, 2, 65535]⟩⟩, ⟨7, .runs ⟨#[⟨0, 65535⟩]⟩⟩]⟩
    s.Valid ∧ s.size = 65539 ∧ (s.limit 4).Valid ∧ (s.limit 4).size = 4 ∧
      (s.dropSmallest 4).size = 65535 ∧ 458752 ∈ s.limit 4 ∧ 458752 ∉ s.dropSmallest 4 ∧
      (s.dropBiggest 65537).size = 2 ∧ s.sizeExceeds 65538 = true := by
  intro s
  have hs : s.Valid := by decide
  have hsize : s.size = 65539 := by cbv
  have h := trims_correct hs 4
  have hlimit := h.2.2.1
  have hmem : 458752 ∈ s.limit 4 := by decide
  refine ⟨hs, hsize, hlimit.1, ?_, ?_, hmem, fun hdrop => (h.2.2.2.2 458752).2 ⟨hmem, hdrop⟩, ?_, ?_⟩
  · rw [hlimit.2.1, hsize]
    rfl
  · rw [h.1.2.1, hsize]
  · rw [(trims_correct hs 65537).2.1.2.1, hsize]
  · rw [(trims_correct hs 65538).2.2.2.1, hsize]
    decide

end IntSet

end ChunkedSet
