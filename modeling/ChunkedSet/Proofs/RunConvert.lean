import ChunkedSet.RunList.Algebra
import ChunkedSet.Proofs.RunList

/-!
# Runs beside arrays and blocks

Runs are listed, trimmed and converted without a change of the denoted set, and they serve as
masks on arrays and blocks.
-/

namespace ChunkedSet

namespace RunList

variable {l : RunList} {b : Block} {S T : Finset Nat}

def listed (runs : List Run) : List Nat := runs.flatMap fun r => List.range' r.first r.size

theorem mem_range'_run {r : Run} (hr : r.first ≤ r.last) {p : Nat} :
    p ∈ List.range' r.first r.size ↔ p ∈ r := by
  rw [List.mem_range'_1, Run.mem_def, Run.size]
  omega

theorem mem_listed {runs : List Run} (hruns : ∀ r ∈ runs, r.first ≤ r.last) {p : Nat} :
    p ∈ listed runs ↔ p ∈ covered runs := by
  rw [listed, List.mem_flatMap, mem_covered]
  constructor
  · intro h
    obtain ⟨r, hr, hp⟩ := h
    exact ⟨r, hr, (mem_range'_run (hruns r hr)).1 hp⟩
  · intro h
    obtain ⟨r, hr, hp⟩ := h
    exact ⟨r, hr, (mem_range'_run (hruns r hr)).2 hp⟩

theorem pairwise_listed {runs : List Run} (hapart : Apart runs)
    (hruns : ∀ r ∈ runs, r.first ≤ r.last) : (listed runs).Pairwise (· < ·) := by
  induction runs with
  | nil => exact List.Pairwise.nil
  | cons r rest ih =>
    have hrest : ∀ s ∈ rest, s.first ≤ s.last := fun s hs => hruns s (List.mem_cons_of_mem r hs)
    rw [listed, List.flatMap_cons, List.pairwise_append]
    refine ⟨List.pairwise_lt_range', ih hapart.tail hrest, fun p hp q hq => ?_⟩
    rw [mem_range'_run (hruns r List.mem_cons_self)] at hp
    have hlt := hapart.before ((mem_listed hrest).1 hq)
    have hle := hp.2
    omega

theorem Denotes.listed_eq_sort (h : l.Denotes S) : listed l.toList = S.sort (· ≤ ·) := by
  have hruns : ∀ r ∈ l.toList, r.first ≤ r.last := fun r hr => (h.1.2 r hr).1
  refine (pairwise_listed h.1.1 hruns).eq_of_mem_iff S.sortedLT_sort.pairwise fun p => ?_
  rw [mem_listed hruns, h.covered, Finset.mem_sort]

theorem toList_toSorted (l : RunList) : l.toSorted.toList = listed l.toList := by
  have hfold : ∀ (runs : List Run) (out : Array Nat),
      (runs.foldl (fun out r => out ++ Array.range' r.first r.size) out).toList =
        out.toList ++ listed runs := by
    intro runs
    induction runs with
    | nil => simp [listed]
    | cons r rest ih =>
      intro out
      rw [List.foldl_cons, ih, Array.toList_append, Array.toList_range', List.append_assoc]
      rfl
  have h := hfold l.toList #[]
  rw [toSorted, SortedArray.toList, ← Array.foldl_toList]
  exact h

theorem toSorted_denotes (h : l.Denotes S) : l.toSorted.Denotes S := by
  refine SortedArray.denotes_of_list S.sortedLT_sort.pairwise (fun p hp => h.lt hp)
    (fun p => Finset.mem_sort _) ?_
  rw [toList_toSorted, h.listed_eq_sort]

/-! Trims. -/

theorem denotes_of_listed {runs : List Run} (hapart : Apart runs)
    (hruns : ∀ r ∈ runs, r.first ≤ r.last ∧ r.last < chunkSize) {m : RunList}
    (hm : m.toList = runs) : m.Denotes (listed runs).toFinset := by
  refine denotes_of_list hapart hruns (fun p => ?_) hm
  rw [List.mem_toFinset, mem_listed fun r hr => (hruns r hr).1, mem_covered]

theorem dropSmallestIn_spec {runs : List Run} (hapart : Apart runs)
    (hruns : ∀ r ∈ runs, r.first ≤ r.last ∧ r.last < chunkSize) (n : Nat) :
    Apart (dropSmallestIn runs n) ∧
      (∀ r ∈ dropSmallestIn runs n, r.first ≤ r.last ∧ r.last < chunkSize) ∧
      listed (dropSmallestIn runs n) = (listed runs).drop n := by
  induction runs generalizing n with
  | nil => exact ⟨List.Pairwise.nil, hruns, by simp [dropSmallestIn, listed]⟩
  | cons r rest ih =>
    have hr := hruns r List.mem_cons_self
    have hrest : ∀ s ∈ rest, s.first ≤ s.last ∧ s.last < chunkSize := fun s hs =>
      hruns s (List.mem_cons_of_mem r hs)
    have hlen : (List.range' r.first r.size).length = r.size := List.length_range'
    have hlisted : listed (r :: rest) = List.range' r.first r.size ++ listed rest := rfl
    rw [dropSmallestIn]
    split
    · rename_i hzero
      exact ⟨hapart, hruns, by rw [hzero, List.drop_zero]⟩
    · split
      · rename_i hle
        obtain ⟨hapart', hruns', hlisted'⟩ := ih hapart.tail hrest (n - r.size)
        have hdrop : (List.range' r.first r.size).drop n = [] :=
          List.drop_eq_nil_of_le (by omega)
        refine ⟨hapart', hruns', ?_⟩
        rw [hlisted', hlisted, List.drop_append, hdrop, List.nil_append, hlen]
      · rename_i hn hgt
        have hsize : r.size = r.last - r.first + 1 := rfl
        refine ⟨List.pairwise_cons.2 (List.pairwise_cons.1 hapart), fun s hs => ?_, ?_⟩
        · rcases List.mem_cons.1 hs with rfl | hs
          · exact ⟨by simp only; omega, hr.2⟩
          · exact hrest s hs
        · have hcut : listed (⟨r.first + n, r.last⟩ :: rest) =
              List.range' (r.first + n) (r.last - (r.first + n) + 1) ++ listed rest := rfl
          have hcount : r.last - (r.first + n) + 1 = r.size - n := by omega
          rw [hlisted, hcut, List.drop_append_of_le_length (by omega), List.drop_range', hcount,
            Nat.mul_one]

theorem listed_append (A B : List Run) : listed (A ++ B) = listed A ++ listed B :=
  List.flatMap_append

theorem dropBiggestIn_spec (runs : List Run) (hapart : Apart runs.reverse)
    (hruns : ∀ r ∈ runs, r.first ≤ r.last ∧ r.last < chunkSize) (n : Nat) :
    Apart (dropBiggestIn runs n).reverse ∧
      (∀ r ∈ dropBiggestIn runs n, r.first ≤ r.last ∧ r.last < chunkSize) ∧
      listed (dropBiggestIn runs n).reverse =
        (listed runs.reverse).take ((listed runs.reverse).length - n) := by
  induction runs generalizing n with
  | nil => exact ⟨List.Pairwise.nil, hruns, by simp [dropBiggestIn, listed]⟩
  | cons r rest ih =>
    have hr := hruns r List.mem_cons_self
    have hrest : ∀ s ∈ rest, s.first ≤ s.last ∧ s.last < chunkSize := fun s hs =>
      hruns s (List.mem_cons_of_mem r hs)
    rw [List.reverse_cons, apart_append] at hapart
    have hsingle : ∀ s : Run, listed [s] = List.range' s.first s.size := fun s => by simp [listed]
    have hlen : (List.range' r.first r.size).length = r.size := List.length_range'
    rw [dropBiggestIn]
    split
    · rename_i hzero
      refine ⟨?_, hruns, by rw [hzero, Nat.sub_zero, List.take_length]⟩
      rw [List.reverse_cons]
      exact apart_append.2 hapart
    · split
      · rename_i hle
        obtain ⟨hapart', hruns', hlisted'⟩ := ih hapart.1 hrest (n - r.size)
        refine ⟨hapart', hruns', ?_⟩
        rw [hlisted', List.reverse_cons, listed_append, hsingle, List.length_append, hlen,
          List.take_append_of_le_length (by omega)]
        congr 1
        omega
      · rename_i hn hgt
        have hsize : r.size = r.last - r.first + 1 := rfl
        refine ⟨?_, fun s hs => ?_, ?_⟩
        · rw [List.reverse_cons]
          refine apart_append.2 ⟨hapart.1, apart_singleton _, fun s hs t ht => ?_⟩
          rw [List.mem_singleton.1 ht]
          exact hapart.2.2 s hs r (List.mem_singleton.2 rfl)
        · rcases List.mem_cons.1 hs with rfl | hs
          · exact ⟨by simp only; omega, by simp only; omega⟩
          · exact hrest s hs
        · have hcut : (⟨r.first, r.last - n⟩ : Run).size = r.size - n := by
            simp only [Run.size]
            omega
          have hsum : (listed rest.reverse).length + r.size - n =
              (listed rest.reverse).length + (r.size - n) := by omega
          rw [List.reverse_cons, List.reverse_cons, listed_append, listed_append, hsingle, hsingle,
            hcut, List.length_append, hlen, hsum, List.take_length_add_append,
            List.take_range'_of_length_ge (Nat.sub_le _ _)]

theorem dropSmallest_denotes (h : l.Denotes S) (n : Nat) :
    (l.dropSmallest n).Denotes ((S.sort (· ≤ ·)).drop n).toFinset := by
  obtain ⟨hapart, hruns, hlisted⟩ := dropSmallestIn_spec h.1.1 h.1.2 n
  rw [← h.listed_eq_sort, ← hlisted]
  exact denotes_of_listed hapart hruns (by simp [dropSmallest, toList])

theorem dropBiggest_denotes (h : l.Denotes S) (n : Nat) :
    (l.dropBiggest n).Denotes ((S.sort (· ≤ ·)).take (S.card - n)).toFinset := by
  have hreverse : l.toList.reverse.reverse = l.toList := List.reverse_reverse _
  have hcard : (listed l.toList).length = S.card := by rw [h.listed_eq_sort, Finset.length_sort]
  obtain ⟨hapart, hruns, hlisted⟩ := dropBiggestIn_spec l.toList.reverse
    (by rw [hreverse]; exact h.1.1) (fun r hr => h.1.2 r (List.mem_reverse.1 hr)) n
  rw [hreverse, hcard] at hlisted
  rw [← h.listed_eq_sort, ← hlisted]
  exact denotes_of_listed hapart (fun r hr => hruns r (List.mem_reverse.1 hr))
    (by simp [dropBiggest, toList])

/-! Runs of a block. -/

theorem nextClear?_least (h : b.Denotes S) {p : Nat} (hp : p < chunkSize) :
    Least (fun q => p ≤ q ∧ q < chunkSize ∧ q ∉ S) (b.words.nextClear? p) := by
  refine (Words.nextClear?_least hp).congr fun q => ?_
  rw [h.contains, decide_eq_false_iff_not]

theorem filter_lt_union_Icc {n start gap : Nat} (hn : n ≤ start) (hgap : start < gap)
    (hleast : ∀ p, n ≤ p ∧ p ∈ S → start ≤ p) (hinside : ∀ p, start ≤ p → p < gap → p ∈ S) :
    S.filter (· < n) ∪ Finset.Icc start (gap - 1) = S.filter (· < gap) := by
  ext p
  rw [Finset.mem_union, Finset.mem_filter, Finset.mem_Icc, Finset.mem_filter]
  constructor
  · intro hp
    rcases hp with hp | hp
    · exact ⟨hp.1, by omega⟩
    · exact ⟨hinside p hp.1 (by omega), by omega⟩
  · intro hp
    by_cases hlow : p < n
    · exact Or.inl ⟨hp.1, hlow⟩
    · exact Or.inr ⟨hleast p ⟨Nat.not_lt.1 hlow, hp.1⟩, by omega⟩

/-- The runs found so far hold what the block has below `n`, and the next one starts behind. -/
theorem ofBlockFrom_denotes (h : b.Denotes S) (fuel : Nat) {n : Nat} {next : Option Nat}
    {out : Array Run} (hnext : Least (fun q => n ≤ q ∧ q ∈ S) next) (hfuel : chunkSize ≤ fuel + n)
    (hout : Denotes ⟨out⟩ (S.filter (· < n))) (hn : n = 0 ∨ n ∉ S) :
    Denotes ⟨ofBlockFrom b fuel next out⟩ S := by
  induction fuel generalizing n next out with
  | zero =>
    have hall : S.filter (· < n) = S := Finset.filter_true_of_mem fun p hp => by
      have hlt := h.lt hp
      omega
    rw [hall] at hout
    exact hout
  | succ fuel ih =>
    cases next with
    | none =>
      have hall : S.filter (· < n) = S := Finset.filter_true_of_mem fun p hp => by
        by_contra hge
        exact hnext p ⟨Nat.not_lt.1 hge, hp⟩
      rw [hall] at hout
      exact hout
    | some start =>
      obtain ⟨⟨hnstart, hstart⟩, hleast⟩ := hnext
      have hlt := h.lt hstart
      have hapart : ∀ q ∈ S.filter (· < n), q + 1 < start := fun q hq => by
        have hqn := (Finset.mem_filter.1 hq).2
        have hne : start ≠ n ∨ n = 0 := by
          rcases hn with hn | hn
          · exact Or.inr hn
          · exact Or.inl fun heq => hn (by rwa [← heq])
        omega
      have hclear := nextClear?_least h hlt
      rw [ofBlockFrom]
      cases hgap : b.words.nextClear? start with
      | none =>
        rw [hgap] at hclear
        have hset := filter_lt_union_Icc hnstart hlt hleast fun p hle hlt => by
          by_contra hnot
          exact hclear p ⟨hle, hlt, hnot⟩
        rw [Finset.filter_true_of_mem fun p hp => h.lt hp] at hset
        rw [← hset]
        exact push_denotes hout (Nat.le_of_lt_succ hlt) (Nat.lt_succ_self _) hapart
      | some gap =>
        rw [hgap] at hclear
        obtain ⟨⟨hle, hgaplt, hgapS⟩, hfirst⟩ := hclear
        have hne : start ≠ gap := fun heq => hgapS (by rwa [← heq])
        have hset : S.filter (· < n) ∪ Finset.Icc start (gap - 1) = S.filter (· < gap) :=
            filter_lt_union_Icc hnstart (by omega) hleast fun p hle hlt => by
          by_contra hnot
          have hge := hfirst p ⟨hle, by omega, hnot⟩
          omega
        have hend : start ≤ gap - 1 ∧ gap - 1 < chunkSize := by omega
        refine ih (Block.next?_least h gap) (by omega) ?_ (Or.inr hgapS)
        rw [← hset]
        exact push_denotes hout hend.1 hend.2 hapart

theorem ofBlock_denotes (h : b.Denotes S) : (ofBlock b).Denotes S := by
  refine ofBlockFrom_denotes h chunkSize (n := 0) (Block.next?_least h 0) (Nat.le_refl _) ?_
    (Or.inl rfl)
  have hnone : S.filter (· < 0) = ∅ := Finset.filter_false_of_mem fun p _ => Nat.not_lt_zero p
  rw [hnone]
  exact empty_denotes

end RunList

/-! Runs as masks on blocks. -/

namespace Block

open RunList (covered)

variable {l : RunList} {b : Block} {S T : Finset Nat}

theorem foldl_insertRange_denotes (h : b.Denotes S) {runs : List Run}
    (hruns : ∀ r ∈ runs, r.last < chunkSize) :
    (runs.foldl (fun b r => (b.insertRange r.first r.last).1) b).Denotes (S ∪ covered runs) := by
  induction runs generalizing b S with
  | nil => simpa [covered] using h
  | cons r rest ih =>
    have hstep : (b.insertRange r.first r.last).1.Denotes (S ∪ Finset.Icc r.first r.last) :=
      (insertRange_denotes h (hruns r List.mem_cons_self)).1
    have hrest := ih hstep fun s hs => hruns s (List.mem_cons_of_mem r hs)
    rwa [Finset.union_assoc] at hrest

theorem insertRuns_denotes (hb : b.Denotes S) (hl : l.Denotes T) :
    (b.insertRuns l).Denotes (S ∪ T) := by
  rw [insertRuns, ← Array.foldl_toList, ← hl.covered]
  exact foldl_insertRange_denotes hb fun r hr => (hl.1.2 r hr).2

theorem toBlock_denotes (h : l.Denotes S) : l.toBlock.Denotes S := by
  have hden := insertRuns_denotes empty_denotes h
  rwa [Finset.empty_union] at hden

theorem eraseRuns_denotes (hb : b.Denotes S) (hl : l.Denotes T) :
    (b.eraseRuns l).Denotes (S \ T) := by
  have hfold : ∀ (runs : List Run) (b : Block) (S : Finset Nat), b.Denotes S →
      (runs.foldl (fun b r => (b.eraseRange r.first r.last).1) b).Denotes (S \ covered runs) := by
    intro runs
    induction runs with
    | nil =>
      intro b S h
      simpa [covered] using h
    | cons r rest ih =>
      intro b S h
      have hrest := ih _ _ (eraseRange_denotes h r.first r.last).1
      rwa [sdiff_sdiff_left, Finset.sup_eq_union] at hrest
  rw [eraseRuns, ← Array.foldl_toList, ← hl.covered]
  exact hfold l.toList b S hb

theorem flipRuns_denotes (hb : b.Denotes S) (hl : l.Denotes T) :
    (b.flipRuns l).Denotes (symmDiff S T) := by
  have hfold : ∀ (runs : List Run), RunList.Apart runs → (∀ r ∈ runs, r.last < chunkSize) →
      ∀ (b : Block) (S : Finset Nat), b.Denotes S →
        (runs.foldl (fun b r => b.flipRange r.first r.last) b).Denotes
          (symmDiff S (covered runs)) := by
    intro runs hapart hruns
    induction runs with
    | nil =>
      intro b S h
      rw [covered, ← Finset.bot_eq_empty, symmDiff_bot]
      exact h
    | cons r rest ih =>
      intro b S h
      have hstep : (b.flipRange r.first r.last).Denotes _ :=
        flipRange_denotes h (hruns r List.mem_cons_self)
      have hrest := ih hapart.tail (fun s hs => hruns s (List.mem_cons_of_mem r hs)) _ _ hstep
      have hdisjoint : Disjoint (Finset.Icc r.first r.last) (covered rest) := by
        rw [Finset.disjoint_left]
        intro p hp hrest
        have hlt := hapart.before hrest
        have hle := (Finset.mem_Icc.1 hp).2
        omega
      rw [symmDiff_assoc, hdisjoint.symmDiff_eq_sup] at hrest
      exact hrest
  rw [flipRuns, ← Array.foldl_toList, ← hl.covered]
  exact hfold l.toList hl.1.1 (fun r hr => (hl.1.2 r hr).2) b S hb

theorem retainFrom_denotes {runs : List Run} (hsorted : runs.Pairwise fun r s => r.last < s.first)
    (hruns : ∀ r ∈ runs, r.first ≤ r.last ∧ r.last < chunkSize) {next : Nat}
    (hnext : ∀ r ∈ runs, next ≤ r.first) (h : b.Denotes S) :
    (retainFrom runs next b).Denotes (S.filter fun p => p < next ∨ p ∈ covered runs) := by
  induction runs generalizing next b S with
  | nil =>
    rw [retainFrom]
    split
    · have hset : S.filter (fun p => p < next ∨ p ∈ covered []) =
          S \ Finset.Icc next lastPosition := by
        ext p
        simp only [covered, Finset.mem_filter, Finset.mem_sdiff, Finset.mem_Icc,
          Finset.notMem_empty, or_false]
        refine and_congr_right fun hp => ?_
        have hlt := h.lt hp
        unfold chunkSize at hlt
        unfold lastPosition
        omega
      rw [hset]
      exact (eraseRange_denotes h next lastPosition).1
    · have hset : S.filter (fun p => p < next ∨ p ∈ covered []) = S :=
        Finset.filter_true_of_mem fun p hp => by
          have hlt := h.lt hp
          omega
      rwa [hset]
  | cons r rest ih =>
    have hr := hruns r List.mem_cons_self
    have hfirst := hnext r List.mem_cons_self
    have hrestruns : ∀ s ∈ rest, s.first ≤ s.last ∧ s.last < chunkSize := fun s hs =>
      hruns s (List.mem_cons_of_mem r hs)
    have hcons := List.pairwise_cons.1 hsorted
    have hrestnext : ∀ s ∈ rest, r.last + 1 ≤ s.first := fun s hs =>
      Nat.succ_le_of_lt (hcons.1 s hs)
    have hcut : (if next < r.first then (b.eraseRange next (r.first - 1)).1 else b).Denotes
        (S.filter fun p => p < next ∨ r.first ≤ p) := by
      split
      · have hset : S.filter (fun p => p < next ∨ r.first ≤ p) =
            S \ Finset.Icc next (r.first - 1) := by
          ext p
          rw [Finset.mem_filter, Finset.mem_sdiff, Finset.mem_Icc]
          refine and_congr_right fun _ => ?_
          omega
        rw [hset]
        exact (eraseRange_denotes h next (r.first - 1)).1
      · have hset : S.filter (fun p => p < next ∨ r.first ≤ p) = S :=
          Finset.filter_true_of_mem fun p _ => by omega
        rwa [hset]
    have hrest := ih hcons.2 hrestruns hrestnext hcut
    have hset : (S.filter fun p => p < next ∨ r.first ≤ p).filter
        (fun p => p < r.last + 1 ∨ p ∈ covered rest) =
        S.filter fun p => p < next ∨ p ∈ covered (r :: rest) := by
      ext p
      simp only [covered, Finset.mem_filter, Finset.mem_union, Finset.mem_Icc]
      by_cases hp : p ∈ covered rest
      · have hlt := RunList.last_lt_of_covered hsorted hp
        have hge : r.first ≤ p := by omega
        simp [hp, hge]
      · simp only [hp, or_false]
        rw [and_assoc]
        refine and_congr_right fun _ => ?_
        omega
    rwa [hset] at hrest

/-- Runs that are in order may touch here. -/
theorem retainRuns_denotes_of_sorted (hb : b.Denotes S)
    (hsorted : l.toList.Pairwise fun r s => r.last < s.first)
    (hruns : ∀ r ∈ l.toList, r.first ≤ r.last ∧ r.last < chunkSize) :
    (b.retainRuns l).Denotes (S ∩ covered l.toList) := by
  have hden := retainFrom_denotes hsorted hruns (fun r _ => Nat.zero_le r.first) hb
  have hset : S.filter (fun p => p < 0 ∨ p ∈ covered l.toList) = S ∩ covered l.toList := by
    ext p
    rw [Finset.mem_filter, Finset.mem_inter]
    simp
  rwa [hset] at hden

theorem retainRuns_denotes (hb : b.Denotes S) (hl : l.Denotes T) :
    (b.retainRuns l).Denotes (S ∩ T) := by
  rw [← hl.covered]
  exact retainRuns_denotes_of_sorted hb hl.1.1.sorted hl.1.2

end Block

/-! Runs as masks on arrays. -/

namespace SortedArray

variable {l : RunList} {a : SortedArray} {S T : Finset Nat}

theorem filterByRuns_eq (inRun : Option Run → Nat → Bool) {list : List Nat}
    (hlist : list.Pairwise (· < ·)) (runs : List Run) (out : Array Nat) :
    (filterByRuns inRun list runs out).toList = out.toList ++
      list.filter fun v => inRun (runs.dropWhile (·.last < v)).head? v := by
  induction list generalizing runs out with
  | nil => simp [filterByRuns]
  | cons v rest ih =>
    have hcons := List.pairwise_cons.1 hlist
    have hagain : ∀ w ∈ rest, (runs.dropWhile (·.last < v)).dropWhile (·.last < w) =
        runs.dropWhile (·.last < w) := fun w hw => by
      have hlt := hcons.1 w hw
      clear ih
      induction runs with
      | nil => rfl
      | cons r runs ihr =>
        by_cases hr : r.last < v
        · have hrw : r.last < w := by omega
          rw [List.dropWhile_cons_of_pos (by simpa using hr), ihr,
            List.dropWhile_cons_of_pos (by simpa using hrw)]
        · rw [List.dropWhile_cons_of_neg (by simpa using hr)]
    have hfilter : rest.filter (fun w =>
        inRun ((runs.dropWhile (·.last < v)).dropWhile (·.last < w)).head? w) =
        rest.filter fun w => inRun (runs.dropWhile (·.last < w)).head? w :=
      List.filter_congr fun w hw => by rw [hagain w hw]
    rw [filterByRuns, ih hcons.2, hfilter, List.filter_cons]
    split <;> simp

theorem mem_covered_iff_head {runs : List Run} (hapart : RunList.Apart runs)
    (hruns : ∀ r ∈ runs, r.first ≤ r.last) (v : Nat) :
    v ∈ RunList.covered runs ↔
      ∃ r, (runs.dropWhile (·.last < v)).head? = some r ∧ r.first ≤ v := by
  induction runs with
  | nil => simp [RunList.covered]
  | cons r rest ih =>
    have hrest := ih hapart.tail fun s hs => hruns s (List.mem_cons_of_mem r hs)
    have hbehind := hapart.before (p := v)
    rw [RunList.covered, Finset.mem_union, Finset.mem_Icc]
    by_cases hr : r.last < v
    · have hout : ¬(r.first ≤ v ∧ v ≤ r.last) := by omega
      rw [List.dropWhile_cons_of_pos (by simpa using hr), ← hrest]
      simp [hout]
    · have hout : v ∉ RunList.covered rest := fun hin => by
        have hlt := hbehind hin
        omega
      rw [List.dropWhile_cons_of_neg (by simpa using hr), List.head?_cons]
      have hle : v ≤ r.last := Nat.not_lt.1 hr
      simp [hout, hle]

/-- Values are kept on one side of the runs, inside of them or outside. -/
theorem filterByRuns_denotes (ha : a.Denotes S) (hl : l.Denotes T) (kept : Bool)
    {inRun : Option Run → Nat → Bool}
    (hinRun : ∀ r p, inRun r p = (r.elim false (fun s => decide (s.first ≤ p)) == kept)) :
    Denotes ⟨filterByRuns inRun a.toList l.toList #[]⟩ {p ∈ S | decide (p ∈ T) = kept} := by
  refine denotes_of_list (ha.1.1.filter _) (fun p hp => ha.lt (Finset.mem_filter.1 hp).1)
    (fun p => ?_) ((filterByRuns_eq inRun ha.1.1 l.toList #[]).trans (List.nil_append _))
  have hcovered := mem_covered_iff_head hl.1.1 (fun r hr => (hl.1.2 r hr).1) p
  have hhead : (l.toList.dropWhile (·.last < p)).head?.elim false
      (fun s => decide (s.first ≤ p)) = decide (p ∈ T) := by
    rw [← hl.covered, Bool.eq_iff_iff, decide_eq_true_eq, hcovered]
    cases (l.toList.dropWhile (·.last < p)).head? with
    | none => simp
    | some r => simp
  rw [List.mem_filter, ha.mem_toList, Finset.mem_filter, hinRun, hhead, beq_iff_eq]

theorem retainRuns_denotes (ha : a.Denotes S) (hl : l.Denotes T) :
    (a.retainRuns l).Denotes (S ∩ T) := by
  have hside : ∀ (r : Option Run) (p : Nat), (r.elim false fun s => decide (s.first ≤ p)) =
      (r.elim false (fun s => decide (s.first ≤ p)) == true) := fun r p => (beq_true _).symm
  have hden := filterByRuns_denotes ha hl true hside
  simp only [decide_eq_true_eq, Finset.filter_mem_eq_inter] at hden
  exact hden

theorem eraseRuns_denotes (ha : a.Denotes S) (hl : l.Denotes T) :
    (a.eraseRuns l).Denotes (S \ T) := by
  have hside : ∀ (r : Option Run) (p : Nat), (r.elim true fun s => decide (p < s.first)) =
      (r.elim false (fun s => decide (s.first ≤ p)) == false) := by
    intro r p
    cases r with
    | none => rfl
    | some r => simp [← decide_not]
  have hden := filterByRuns_denotes ha hl false hside
  simp only [decide_eq_false_iff_not, Finset.filter_notMem_eq_sdiff] at hden
  exact hden

end SortedArray

end ChunkedSet
