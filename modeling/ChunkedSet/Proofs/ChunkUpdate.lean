import ChunkedSet.Proofs.ChunkAlgebra

/-!
# Changes of one chunk

What each update makes of the denoted set and what it reports. A chunk that an update leaves
alone is the same chunk; every other result is settled.
-/

namespace ChunkedSet

variable {S T : Finset Nat}

/-! A representation is determined by the set it denotes. -/

theorem SortedArray.Denotes.eq {a b : SortedArray} (ha : a.Denotes S) (hb : b.Denotes S) : a = b := by
  have hlist : a.toList = b.toList := by rw [ha.toList_eq_sort, hb.toList_eq_sort]
  exact congrArg SortedArray.mk (Array.toList_inj.1 hlist)

theorem Block.Denotes.eq {b c : Block} (hb : b.Denotes S) (hc : c.Denotes S) : b = c := by
  have hwords : b.words = c.words := Words.ext_contains fun p => by
    rw [hb.contains, hc.contains]
  have hsize : b.size = c.size := by rw [hb.size, hc.size]
  cases b
  cases c
  simp only at hwords hsize
  rw [hwords, hsize]

/-! Two lists of runs that cover the same positions agree from the first run on. -/

namespace RunList

variable {x y : Run} {xs ys : List Run}

theorem mem_covered_cons {p : Nat} :
    p ∈ covered (x :: xs) ↔ x.first ≤ p ∧ p ≤ x.last ∨ p ∈ covered xs := by
  rw [covered, Finset.mem_union, Finset.mem_Icc]

theorem first_le_of_covered (hxs : Apart (x :: xs)) (hx : x.first ≤ x.last) (hy : y.first ≤ y.last)
    (h : covered (x :: xs) = covered (y :: ys)) : x.first ≤ y.first := by
  have hin : y.first ∈ covered (x :: xs) := by
    rw [h, mem_covered_cons]
    exact Or.inl ⟨Nat.le_refl _, hy⟩
  rcases mem_covered_cons.1 hin with hin | hin
  · exact hin.1
  · have hlt := hxs.before hin
    omega

theorem last_le_of_covered (hxs : Apart (x :: xs)) (hfirst : x.first = y.first)
    (hx : x.first ≤ x.last) (h : covered (x :: xs) = covered (y :: ys)) : y.last ≤ x.last := by
  by_contra hlt
  have hin : x.last + 1 ∈ covered (x :: xs) := by
    rw [h, mem_covered_cons]
    exact Or.inl ⟨by omega, by omega⟩
  rcases mem_covered_cons.1 hin with hin | hin
  · omega
  · exact Nat.lt_irrefl _ (hxs.before hin)

theorem covered_tail_eq (hxs : Apart (x :: xs)) :
    covered xs = (covered (x :: xs)).filter (x.last < ·) := by
  ext p
  rw [Finset.mem_filter, mem_covered_cons]
  constructor
  · intro hp
    have hlt := hxs.before hp
    exact ⟨Or.inr hp, by omega⟩
  · intro hp
    rcases hp.1 with hin | hin
    · omega
    · exact hin

theorem eq_of_covered (hxs : Apart xs) (hxruns : ∀ r ∈ xs, r.first ≤ r.last) (hys : Apart ys)
    (hyruns : ∀ r ∈ ys, r.first ≤ r.last) (h : covered xs = covered ys) : xs = ys := by
  induction xs generalizing ys with
  | nil =>
    cases ys with
    | nil => rfl
    | cons y ys =>
      have hin : y.first ∈ covered (y :: ys) :=
        mem_covered_cons.2 (Or.inl ⟨Nat.le_refl _, hyruns y List.mem_cons_self⟩)
      rw [← h] at hin
      exact absurd hin (Finset.notMem_empty _)
  | cons x xs ih =>
    cases ys with
    | nil =>
      have hin : x.first ∈ covered (x :: xs) :=
        mem_covered_cons.2 (Or.inl ⟨Nat.le_refl _, hxruns x List.mem_cons_self⟩)
      rw [h] at hin
      exact absurd hin (Finset.notMem_empty _)
    | cons y ys =>
      have hx := hxruns x List.mem_cons_self
      have hy := hyruns y List.mem_cons_self
      have hfirst : x.first = y.first :=
        Nat.le_antisymm (first_le_of_covered hxs hx hy h) (first_le_of_covered hys hy hx h.symm)
      have hlast : x.last = y.last :=
        Nat.le_antisymm (last_le_of_covered hys hfirst.symm hy h.symm)
          (last_le_of_covered hxs hfirst hx h)
      have hrest : covered xs = covered ys := by
        rw [covered_tail_eq hxs, covered_tail_eq hys, h, hlast]
      have hxy : x = y := by
        cases x
        cases y
        simp only at hfirst hlast
        rw [hfirst, hlast]
      rw [hxy, ih hxs.tail (fun r hr => hxruns r (List.mem_cons_of_mem x hr)) hys.tail
        (fun r hr => hyruns r (List.mem_cons_of_mem y hr)) hrest]

end RunList

theorem RunList.Denotes.eq {l m : RunList} (hl : l.Denotes S) (hm : m.Denotes S) : l = m := by
  have hlist : l.toList = m.toList := eq_of_covered hl.1.1 (fun r hr => (hl.1.2 r hr).1) hm.1.1
    (fun r hr => (hm.1.2 r hr).1) (by rw [hl.covered, hm.covered])
  exact congrArg RunList.mk (Array.toList_inj.1 hlist)

namespace Chunk

variable {c d : Chunk} {p lo hi : Nat}

theorem Denotes.eq (hc : c.Denotes S) (hd : d.Denotes S) (hruns : c.isRuns = d.isRuns)
    (hblock : c.isBlock = d.isBlock) : c = d := by
  cases c with
  | array a =>
    cases d with
    | array b => exact congrArg array (SortedArray.Denotes.eq hc hd)
    | block b => cases hblock
    | runs l => cases hruns
  | block b =>
    cases d with
    | array a => cases hblock
    | block b' => exact congrArg block (Block.Denotes.eq hc hd)
    | runs l => cases hblock
  | runs l =>
    cases d with
    | array a => cases hruns
    | block b => cases hblock
    | runs m => exact congrArg runs (RunList.Denotes.eq hc hd)

/-! Single positions. -/

theorem max?_greatest (h : c.Denotes S) : Greatest (· ∈ S) c.max? := by
  cases c with
  | array a => exact SortedArray.max?_greatest h
  | block b => exact Block.max?_greatest h
  | runs l => exact RunList.max?_greatest h

theorem insertRaw_denotes (h : c.Denotes S) (hp : p < chunkSize) :
    (c.insertRaw p).1.Denotes (Insert.insert p S) ∧ (c.insertRaw p).2 = decide (p ∉ S) := by
  cases c with
  | array a => exact SortedArray.insert_denotes h hp
  | block b => exact Block.insert_denotes h hp
  | runs l => exact RunList.insert_denotes h hp

theorem insertRaw_eq_self (h : c.Denotes S) (hp : p < chunkSize) (hmem : p ∈ S) :
    (c.insertRaw p).1 = c := by
  have hden := (insertRaw_denotes h hp).1
  rw [Finset.insert_eq_of_mem hmem] at hden
  cases c with
  | array a => exact hden.eq h rfl rfl
  | block b => exact hden.eq h rfl rfl
  | runs l => exact hden.eq h rfl rfl

theorem settleIf_denotes {changed : Bool} (h : c.Denotes S) : (settleIf changed c).Denotes S := by
  cases changed with
  | false => exact h
  | true => exact settle_denotes h

theorem insert_denotes (h : c.Denotes S) (hp : p < chunkSize) :
    (c.insert p).1.Denotes (Insert.insert p S) ∧ (c.insert p).2 = decide (p ∉ S) :=
  ⟨settleIf_denotes (insertRaw_denotes h hp).1, (insertRaw_denotes h hp).2⟩

theorem insert_eq_or_fits (h : c.Denotes S) (hp : p < chunkSize) :
    p ∈ S ∧ (c.insert p).1 = c ∨ p ∉ S ∧ (c.insert p).1.fits = true := by
  have hraw := insertRaw_denotes h hp
  have hinsert : (c.insert p).1 = settleIf (c.insertRaw p).2 (c.insertRaw p).1 := rfl
  rw [hinsert, hraw.2]
  by_cases hmem : p ∈ S
  · left
    rw [decide_eq_false (not_not.2 hmem)]
    exact ⟨hmem, insertRaw_eq_self h hp hmem⟩
  · right
    rw [decide_eq_true hmem]
    exact ⟨hmem, fits_settle hraw.1⟩

theorem eraseRaw_denotes (h : c.Denotes S) (hp : p < chunkSize) :
    (c.eraseRaw p).1.Denotes (S.erase p) ∧ (c.eraseRaw p).2 = decide (p ∈ S) := by
  cases c with
  | array a => exact SortedArray.erase_denotes h
  | block b => exact Block.erase_denotes h hp
  | runs l => exact RunList.erase_denotes h p

theorem eraseRaw_eq_self (h : c.Denotes S) (hp : p < chunkSize) (hmem : p ∉ S) :
    (c.eraseRaw p).1 = c := by
  have hden := (eraseRaw_denotes h hp).1
  rw [Finset.erase_eq_of_notMem hmem] at hden
  cases c with
  | array a => exact hden.eq h rfl rfl
  | block b => exact hden.eq h rfl rfl
  | runs l => exact hden.eq h rfl rfl

theorem erase_denotes (h : c.Denotes S) (hp : p < chunkSize) :
    (c.erase p).1.Denotes (S.erase p) ∧ (c.erase p).2 = decide (p ∈ S) :=
  ⟨settleIf_denotes (eraseRaw_denotes h hp).1, (eraseRaw_denotes h hp).2⟩

theorem erase_eq_or_fits (h : c.Denotes S) (hp : p < chunkSize) :
    p ∉ S ∧ (c.erase p).1 = c ∨ p ∈ S ∧ (c.erase p).1.fits = true := by
  have hraw := eraseRaw_denotes h hp
  have herase : (c.erase p).1 = settleIf (c.eraseRaw p).2 (c.eraseRaw p).1 := rfl
  rw [herase, hraw.2]
  by_cases hmem : p ∈ S
  · right
    rw [decide_eq_true hmem]
    exact ⟨hmem, fits_settle hraw.1⟩
  · left
    rw [decide_eq_false hmem]
    exact ⟨hmem, eraseRaw_eq_self h hp hmem⟩

theorem append_eq_insert (h : c.Denotes S) (hp : p < chunkSize) (hlast : ∀ q ∈ S, q < p) :
    c.append p = (c.insert p).1 := by
  have hmem : p ∉ S := fun hin => Nat.lt_irrefl p (hlast p hin)
  have hraw := insertRaw_denotes h hp
  have hinsert : (c.insert p).1 = settleIf (c.insertRaw p).2 (c.insertRaw p).1 := rfl
  rw [hinsert, hraw.2, decide_eq_true hmem, settleIf, if_pos rfl]
  refine congrArg settle ?_
  cases c with
  | array a =>
    have heq : a.append p = (a.insert p).1 :=
      (SortedArray.append_denotes h hp hlast).eq (SortedArray.insert_denotes h hp).1
    exact congrArg array heq
  | block b =>
    have heq : b.append p = (b.insert p).1 :=
      (Block.append_denotes h hp).eq (Block.insert_denotes h hp).1
    exact congrArg block heq
  | runs l =>
    have heq : l.append p = (l.insert p).1 :=
      (RunList.append_denotes h hp hlast).eq (RunList.insert_denotes h hp).1
    exact congrArg runs heq

theorem ofRange_self_eq_insert (hp : p < chunkSize) : ofRange p p = (empty.insert p).1 := by
  have hraw := insertRaw_denotes empty_denotes hp
  have hrange := SortedArray.insertRange_denotes SortedArray.empty_denotes (Nat.le_refl p) hp
  rw [Finset.Icc_self, Finset.empty_union] at hrange
  have harray : ofRange p p = array (SortedArray.empty.insertRange p p).1 := by
    rw [ofRange, if_neg (by rw [Nat.sub_self]; decide)]
  have heq : array (SortedArray.empty.insertRange p p).1 = (empty.insertRaw p).1 :=
    congrArg array (hrange.eq hraw.1)
  have hinsert : (empty.insert p).1 =
      settleIf (empty.insertRaw p).2 (empty.insertRaw p).1 := rfl
  have hfits : (ofRange p p).fits = true := fits_ofRange (Nat.le_refl p) hp
  rw [harray, heq] at hfits
  rw [hinsert, hraw.2, harray, heq]
  exact (if_pos hfits).symm

theorem push_eq (c : Chunk) (p : Nat) :
    c.push p = if c.max?.all (· < p) then (c.append p, true) else (c, false) := by
  cases c with
  | array a =>
    have hmax : (array a).max? = a.max? := rfl
    rw [push, pushRaw, SortedArray.push, hmax]
    cases a.max? with
    | none => rfl
    | some last => by_cases hlt : last < p <;> simp [hlt, settleIf, append]
  | block b =>
    have hmax : (block b).max? = b.max? := rfl
    rw [push, pushRaw, Block.push, hmax]
    cases b.max? with
    | none => rfl
    | some last => by_cases hlt : last < p <;> simp [hlt, settleIf, append]
  | runs l =>
    have hmax : (runs l).max? = l.max? := rfl
    rw [push, pushRaw, RunList.push, hmax]
    cases l.max? with
    | none => rfl
    | some last => by_cases hlt : last < p <;> simp [hlt, settleIf, append]

/-! Ranges of positions. -/

theorem rangeSize_eq_card (h : c.Denotes S) (hle : lo ≤ hi) :
    c.rangeSize lo hi = (S ∩ Finset.Icc lo hi).card := by
  cases c with
  | array a => exact SortedArray.rangeSize_eq_card h hle
  | block b => exact Block.rangeSize_eq_card h lo hi
  | runs l => exact RunList.rangeSize_eq_card h hle

theorem widen_denotes (h : c.Denotes S) (n : Nat) : (c.widen n).Denotes S := by
  cases c with
  | array a =>
    rw [widen]
    split
    · exact toBlock_denotes h
    · exact h
  | block b => exact h
  | runs l => exact h

theorem insertRangeRaw_denotes (h : c.Denotes S) (hle : lo ≤ hi) (hhi : hi < chunkSize) :
    (c.insertRangeRaw lo hi).Denotes (S ∪ Finset.Icc lo hi) := by
  cases c with
  | array a => exact SortedArray.insertRange_denotes h hle hhi
  | block b => exact (Block.insertRange_denotes h hhi).1
  | runs l => exact (RunList.insertRange_denotes h hle hhi).1

theorem card_Icc_sdiff (S : Finset Nat) (hle : lo ≤ hi) :
    (Finset.Icc lo hi \ S).card = hi - lo + 1 - (S ∩ Finset.Icc lo hi).card := by
  have hcard : (Finset.Icc lo hi).card = hi - lo + 1 := by
    rw [Nat.card_Icc]
    omega
  rw [Finset.card_sdiff, hcard]

theorem eq_full_of_card (hlt : ∀ q ∈ S, q < chunkSize) (hcard : S.card = chunkSize) :
    S = Finset.Icc 0 lastPosition := by
  refine Finset.eq_of_subset_of_card_le (fun q hq => ?_) ?_
  · exact Finset.mem_Icc.2 ⟨Nat.zero_le q, Nat.le_of_lt_succ (hlt q hq)⟩
  · rw [hcard, Nat.card_Icc]
    exact Nat.le_refl _

theorem insertRange_denotes (h : c.Denotes S) (hle : lo ≤ hi) (hhi : hi < chunkSize) :
    (c.insertRange lo hi).1.Denotes (S ∪ Finset.Icc lo hi) ∧
      (c.insertRange lo hi).2 = (Finset.Icc lo hi \ S).card ∧
      (c.insertRange lo hi).1.fits = true := by
  have hraw := insertRangeRaw_denotes (widen_denotes h (c.size + (hi - lo + 1 - c.rangeSize lo hi)))
    hle hhi
  have hadded : hi - lo + 1 - c.rangeSize lo hi = (Finset.Icc lo hi \ S).card := by
    rw [rangeSize_eq_card h hle, card_Icc_sdiff S hle]
  rw [insertRange]
  dsimp only
  split
  · rename_i hempty
    rw [h.isEmpty, decide_eq_true_eq] at hempty
    have hcount := card_Icc_sdiff ∅ hle
    rw [Finset.empty_inter, Finset.card_empty, Nat.sub_zero] at hcount
    rw [hempty, Finset.empty_union]
    exact ⟨ofRange_denotes hle hhi, hcount.symm, fits_ofRange hle hhi⟩
  · split
    · rename_i hsize
      have hunion : (S ∪ Finset.Icc lo hi).card = chunkSize := by
        rw [Finset.union_comm, ← Finset.card_sdiff_add_card, ← hadded, ← h.size, ← hsize,
          Nat.add_comm]
      have hfull := eq_full_of_card (fun q hq => hraw.lt hq) hunion
      rw [hfull]
      exact ⟨full_denotes, hadded, fits_full⟩
    · exact ⟨settle_denotes hraw, hadded, fits_settle hraw⟩

theorem eraseRange_denotes (h : c.Denotes S) (hle : lo ≤ hi) (hhi : hi < chunkSize) :
    (c.eraseRange lo hi).1.Denotes (S \ Finset.Icc lo hi) ∧
      (c.eraseRange lo hi).2 = (S ∩ Finset.Icc lo hi).card ∧
      (c.eraseRange lo hi).1.fits = true := by
  have hraw : (c.eraseRangeRaw lo hi).1.Denotes (S \ Finset.Icc lo hi) ∧
      (c.eraseRangeRaw lo hi).2 = (S ∩ Finset.Icc lo hi).card := by
    cases c with
    | array a => exact SortedArray.eraseRange_denotes h hle hhi
    | block b => exact Block.eraseRange_denotes h lo hi
    | runs l => exact RunList.eraseRange_denotes h hle
  exact ⟨settle_denotes hraw.1, hraw.2, fits_settle hraw.1⟩

theorem flipRange_denotes (h : c.Denotes S) (hle : lo ≤ hi) (hhi : hi < chunkSize) :
    (c.flipRange lo hi).Denotes (symmDiff S (Finset.Icc lo hi)) := by
  have hrange : (runs (.ofRange lo hi)).Denotes (Finset.Icc lo hi) :=
    RunList.ofRange_denotes hle hhi
  cases c with
  | array a => exact symmetricDifferenceOnto_denotes h hrange
  | block b => exact Block.flipRange_denotes h hhi
  | runs l => exact symmetricDifferenceOnto_denotes h hrange

theorem unionGaps_denotes (h : c.Denotes S) {gaps : RunList} (hgaps : gaps.Denotes T) :
    (c.unionGaps gaps).Denotes (S ∪ T) := by
  have hruns : (runs gaps).Denotes T := hgaps
  cases c with
  | array a =>
    rw [Finset.union_comm]
    exact unionOnto_denotes hruns h
  | block b => exact Block.insertRuns_denotes h hgaps
  | runs l =>
    rw [Finset.union_comm]
    exact unionOnto_denotes hruns h

theorem orNot_denotes (hc : c.Denotes S) (hd : d.Denotes T) {last : Nat} (hlast : last < chunkSize) :
    (c.orNot d last).Denotes (S ∪ Finset.Icc 0 last \ T) := by
  cases d with
  | array a => exact unionGaps_denotes hc (RunList.gapsWithin_singletons_denotes hd hlast)
  | block b => exact Block.orNot_denotes (toBits_denotes hc) hd hlast
  | runs l => exact unionGaps_denotes hc (RunList.gapsWithin_toList_denotes hd hlast)

/-! Trims. -/

theorem dropSmallest_denotes (h : c.Denotes S) (n : Nat) :
    (c.dropSmallest n).Denotes ((S.sort (· ≤ ·)).drop n).toFinset ∧
      (c.dropSmallest n).fits = true := by
  cases c with
  | array a => exact settle_spec (SortedArray.dropSmallest_denotes h n)
  | block b => exact settle_spec (Block.dropSmallest_denotes h n)
  | runs l => exact settle_spec (RunList.dropSmallest_denotes h n)

theorem dropBiggest_denotes (h : c.Denotes S) (n : Nat) :
    (c.dropBiggest n).Denotes ((S.sort (· ≤ ·)).take (S.card - n)).toFinset ∧
      (c.dropBiggest n).fits = true := by
  cases c with
  | array a => exact settle_spec (SortedArray.dropBiggest_denotes h n)
  | block b => exact settle_spec (Block.dropBiggest_denotes h n)
  | runs l => exact settle_spec (RunList.dropBiggest_denotes h n)

theorem card_dropSmallest (S : Finset Nat) (n : Nat) :
    ((S.sort (· ≤ ·)).drop n).toFinset.card = S.card - n := by
  rw [List.toFinset_card_of_nodup ((S.sort_nodup _).sublist (List.drop_sublist n _)),
    List.length_drop, Finset.length_sort]

theorem card_dropBiggest (S : Finset Nat) (n : Nat) :
    ((S.sort (· ≤ ·)).take (S.card - n)).toFinset.card = S.card - n := by
  rw [List.toFinset_card_of_nodup ((S.sort_nodup _).sublist (List.take_sublist _ _)),
    List.length_take, Finset.length_sort, Nat.min_eq_left (Nat.sub_le _ _)]

end Chunk

end ChunkedSet
