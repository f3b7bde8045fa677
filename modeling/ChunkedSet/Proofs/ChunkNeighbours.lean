import ChunkedSet.Proofs.ChunkCompare
import ChunkedSet.Proofs.Rank
import ChunkedSet.Proofs.SortedQueue

/-!
# Neighbours in one chunk

The nearest position on either side of a given one that is in the chunk, and the nearest one that
is missing. An array walks along its values, a block scans its words, and a list of runs looks at
the one run that could hold the position.
-/

namespace ChunkedSet

open Finset

variable {S : Finset Nat} {p : Nat}

theorem getLast?_take_place {α : Type} (xs : Array α) (n : Nat) : n ≤ xs.size →
    (match n with
      | 0 => none
      | i + 1 => xs[i]?) = (xs.toList.take n).getLast? := by
  intro hn
  cases n with
  | zero => rfl
  | succ i =>
    have hi : i < xs.toList.length := hn
    rw [List.take_succ_eq_append_getElem hi, List.getLast?_concat, Array.getElem_toList]
    exact Array.getElem?_eq_getElem hn

namespace SortedArray

variable {a : SortedArray} {xs : List Nat} {c : Nat}

theorem Denotes.lists (h : a.Denotes S) : Lists a.toList (· ∈ S) := ⟨h.1.1, fun _ => h.mem_toList⟩

theorem next?_least (h : a.Denotes S) (p : Nat) : Least (fun q => p ≤ q ∧ q ∈ S) (a.next? p) := by
  have hhead : a.next? p = (a.toList.filter (p ≤ ·)).head? := by
    rw [← drop_below h.1, List.head?_drop, toList, Array.getElem?_toList, next?]
  rw [hhead]
  exact (h.lists.filter _).head?.congr fun q => by rw [decide_eq_true_eq, and_comm]

theorem previous?_greatest (h : a.Denotes S) (p : Nat) :
    Greatest (fun q => q ≤ p ∧ q ∈ S) (a.previous? p) := by
  have hlast : a.previous? p = (a.toList.filter (· ≤ p)).getLast? := by
    rw [← take_rank h.1]
    exact getLast?_take_place a.values _ (partitionPoint_le_size _ _)
  rw [hlast]
  exact (h.lists.filter _).getLast?.congr fun q => by rw [decide_eq_true_eq, and_comm]

theorem climb_least (hxs : xs.Pairwise (· < ·)) (hge : ∀ x ∈ xs, c ≤ x) :
    Least (fun q => c ≤ q ∧ q ∉ xs) (some (climb xs c)) := by
  induction xs generalizing c with
  | nil => exact ⟨⟨Nat.le_refl c, List.not_mem_nil⟩, fun q hq => hq.1⟩
  | cons x rest ih =>
    obtain ⟨hbehind, hsorted⟩ := List.pairwise_cons.1 hxs
    rw [climb]
    split
    · rename_i heq
      subst heq
      refine (ih hsorted hbehind).congr fun q => ?_
      rw [List.mem_cons, not_or, ← and_assoc]
      exact and_congr_left fun _ => by omega
    · rename_i hne
      have hx := hge x List.mem_cons_self
      refine ⟨⟨Nat.le_refl c, fun hc => ?_⟩, fun q hq => hq.1⟩
      rcases List.mem_cons.1 hc with heq | hc
      · exact hne heq.symm
      · have hlt := hbehind c hc
        omega

theorem descend_greatest (hxs : xs.Pairwise (· > ·)) (hle : ∀ x ∈ xs, x ≤ c) :
    Greatest (fun q => q ≤ c ∧ q ∉ xs) (descend xs c) := by
  induction xs generalizing c with
  | nil => exact ⟨⟨Nat.le_refl c, List.not_mem_nil⟩, fun q hq => hq.1⟩
  | cons x rest ih =>
    obtain ⟨hbehind, hsorted⟩ := List.pairwise_cons.1 hxs
    rw [descend.eq_def]
    dsimp only
    split
    · rename_i heq
      subst heq
      cases x with
      | zero =>
        rintro q ⟨hq, hnot⟩
        rw [Nat.le_zero.1 hq] at hnot
        exact hnot List.mem_cons_self
      | succ lower =>
        refine (ih hsorted fun y hy => Nat.le_of_lt_succ (hbehind y hy)).congr fun q => ?_
        rw [List.mem_cons, not_or, ← and_assoc]
        exact and_congr_left fun _ => by omega
    · rename_i hne
      have hx := hle x List.mem_cons_self
      refine ⟨⟨Nat.le_refl c, fun hc => ?_⟩, fun q hq => hq.1⟩
      rcases List.mem_cons.1 hc with heq | hc
      · exact hne heq.symm
      · have hlt := hbehind c hc
        omega

theorem nextAbsent?_least (h : a.Denotes S) (p : Nat) :
    Least (fun q => p ≤ q ∧ q < chunkSize ∧ q ∉ S) (a.nextAbsent? p) := by
  have hclimb := climb_least (c := p) (h.1.1.filter (p ≤ ·)) fun x hx =>
    of_decide_eq_true (List.mem_filter.1 hx).2
  have hfound : Least (fun q => p ≤ q ∧ q ∉ S) (some (climb (a.toList.filter (p ≤ ·)) p)) := by
    refine hclimb.congr fun q => and_congr_right fun hq => ?_
    rw [List.mem_filter, h.mem_toList, decide_eq_true hq]
    simp
  rw [nextAbsent?, toList_extract_size, drop_below h.1]
  split
  · rename_i hlt
    exact ⟨⟨hfound.1.1, hlt, hfound.1.2⟩, fun q hq => hfound.2 q ⟨hq.1, hq.2.2⟩⟩
  · rename_i hge
    intro q hq
    have hle := hfound.2 q ⟨hq.1, hq.2.2⟩
    omega

theorem previousAbsent?_greatest (h : a.Denotes S) (p : Nat) :
    Greatest (fun q => q ≤ p ∧ q ∉ S) (a.previousAbsent? p) := by
  rw [previousAbsent?, toList_extract_zero, take_rank h.1]
  refine (descend_greatest (List.pairwise_reverse.2 (h.1.1.filter _)) fun x hx => ?_).congr fun q => ?_
  · exact of_decide_eq_true (List.mem_filter.1 (List.mem_reverse.1 hx)).2
  · refine and_congr_right fun hq => ?_
    rw [List.mem_reverse, List.mem_filter, h.mem_toList, decide_eq_true hq]
    simp

end SortedArray

namespace Words

variable {ws : Words} {k : Nat} {w : UInt64}

theorem lastClearIn_greatest :
    Greatest (Behind (ws.contains · = false) k w) (lastClearIn ws k w) := by
  have hfound : ∀ {k w}, w ≠ 0 →
      Greatest (Behind (ws.contains · = false) k w) (some (k * 64 + Word.highest w)) :=
    fun hw => ⟨behind_highest hw, fun _ hq => hq.le_highest⟩
  induction k generalizing w with
  | zero =>
    rw [lastClearIn]
    split
    · rename_i hw
      exact hfound hw
    · rename_i hw
      rw [not_not.1 hw]
      intro q hq
      exact Nat.not_lt_zero _ (behind_zero.1 hq).1
  | succ k ih =>
    rw [lastClearIn]
    split
    · rename_i hw
      exact hfound hw
    · rename_i hw
      rw [not_not.1 hw]
      exact ih.congr fun q => behind_succ has_not_word_iff

theorem previousClear?_greatest (ws : Words) (p : Nat) :
    Greatest (fun q => q ≤ p ∧ ws.contains q = false) (ws.previousClear? p) :=
  lastClearIn_greatest.congr fun _ => behind_downward has_not_word_iff

end Words

namespace Block

variable {b : Block}

theorem previous?_greatest (h : b.Denotes S) (p : Nat) :
    Greatest (fun q => q ≤ p ∧ q ∈ S) (b.previous? p) := by
  refine Words.lastBetween_greatest.congr fun q => ?_
  rw [h.contains, decide_eq_true_eq, Nat.lt_succ_iff]
  exact and_iff_right (Nat.zero_le q)

theorem nextAbsent?_least (h : b.Denotes S) (hp : p < chunkSize) :
    Least (fun q => p ≤ q ∧ q < chunkSize ∧ q ∉ S) (b.words.nextClear? p) := by
  refine (Words.nextClear?_least hp).congr fun q => ?_
  rw [h.contains, decide_eq_false_iff_not]

theorem previousAbsent?_greatest (h : b.Denotes S) (p : Nat) :
    Greatest (fun q => q ≤ p ∧ q ∉ S) (b.words.previousClear? p) := by
  refine (Words.previousClear?_greatest b.words p).congr fun q => ?_
  rw [h.contains, decide_eq_false_iff_not]

end Block

namespace RunList

variable {l : RunList}

/-- The run at the place of a position is the first that has positions from there on. -/
theorem Denotes.run_at_place (h : l.Denotes S) (p : Nat) :
    (l.runs[l.place p]? = none ∧ ∀ q ∈ S, q < p) ∨
      ∃ r ∈ l.toList, l.runs[l.place p]? = some r ∧ p ≤ r.last ∧ ∀ q ∈ S, p ≤ q → r.first ≤ q := by
  have hparts := List.take_append_drop (l.place p) l.toList
  have hfront : ∀ r ∈ l.toList.take (l.place p), r.last < p := by
    intro r hr
    rw [take_place h.1] at hr
    exact of_decide_eq_true (List.mem_filter.1 hr).2
  have hback : ∀ r ∈ l.toList.drop (l.place p), p ≤ r.last := by
    intro r hr
    rw [drop_place h.1] at hr
    exact of_decide_eq_true (List.mem_filter.1 hr).2
  have hmem : ∀ q ∈ S, p ≤ q → ∃ r ∈ l.toList.drop (l.place p), r.first ≤ q ∧ q ≤ r.last := by
    intro q hq hpq
    obtain ⟨r, hr, hin⟩ := (h.2 q).2 hq
    rw [← hparts] at hr
    rcases List.mem_append.1 hr with hr | hr
    · have hlt := hfront r hr
      have hle := hin.2
      omega
    · exact ⟨r, hr, hin⟩
  have hsorted := h.1.pairwise.drop (i := l.place p)
  rw [getElem?_place]
  cases hdrop : l.toList.drop (l.place p) with
  | nil =>
    refine Or.inl ⟨rfl, fun q hq => Nat.lt_of_not_le fun hpq => ?_⟩
    obtain ⟨r, hr, -⟩ := hmem q hq hpq
    rw [hdrop] at hr
    exact List.not_mem_nil hr
  | cons r rest =>
    rw [hdrop] at hmem hback hsorted
    refine Or.inr ⟨r, List.mem_of_mem_drop (by rw [hdrop]; exact List.mem_cons_self), rfl,
      hback r List.mem_cons_self, fun q hq hpq => ?_⟩
    obtain ⟨s, hs, hin⟩ := hmem q hq hpq
    rcases List.mem_cons.1 hs with rfl | hs
    · exact hin.1
    · have hrs := (List.pairwise_cons.1 hsorted).1 s hs
      omega

theorem Denotes.run_upTo (h : l.Denotes S) (p : Nat) :
    (l.lastUpTo? p = none ∧ ∀ q ∈ S, p < q) ∨
      ∃ r ∈ l.toList, l.lastUpTo? p = some r ∧ r.first ≤ p ∧ ∀ q ∈ S, q ≤ p → q ≤ r.last := by
  have hleading : ∀ r s : Run, r.first ≤ r.last ∧ r.last + 1 < s.first ∧ s.first ≤ s.last →
      decide (s.first ≤ p) = true → decide (r.first ≤ p) = true := by
    intro r s hrs hs
    simp only [decide_eq_true_eq] at *
    omega
  have hlookup : l.lastUpTo? p = (l.toList.filter (·.first ≤ p)).getLast? := by
    rw [toList, ← take_partitionPoint h.1.pairwise hleading]
    exact getLast?_take_place l.runs _ (partitionPoint_le_size _ _)
  have hmem : ∀ q ∈ S, q ≤ p → ∃ r ∈ l.toList.filter (·.first ≤ p), r.first ≤ q ∧ q ≤ r.last := by
    intro q hq hqp
    obtain ⟨r, hr, hin⟩ := (h.2 q).2 hq
    exact ⟨r, List.mem_filter.2 ⟨hr, decide_eq_true (hin.1.trans hqp)⟩, hin⟩
  have hsorted := h.1.pairwise.filter (·.first ≤ p)
  rw [hlookup]
  rcases List.eq_nil_or_concat (l.toList.filter (·.first ≤ p)) with hlist | ⟨init, r, hlist⟩
  · rw [hlist] at hmem ⊢
    refine Or.inl ⟨rfl, fun q hq => Nat.lt_of_not_le fun hqp => ?_⟩
    obtain ⟨r, hr, -⟩ := hmem q hq hqp
    exact List.not_mem_nil hr
  · rw [List.concat_eq_append] at hlist
    have hr : r ∈ l.toList.filter (·.first ≤ p) := by simp [hlist]
    obtain ⟨hr, hfirst⟩ := List.mem_filter.1 hr
    rw [hlist] at hmem hsorted ⊢
    refine Or.inr ⟨r, hr, List.getLast?_concat, of_decide_eq_true hfirst, fun q hq hqp => ?_⟩
    obtain ⟨s, hs, hin⟩ := hmem q hq hqp
    rcases List.mem_append.1 hs with hs | hs
    · have hsr := (List.pairwise_append.1 hsorted).2.2 s hs r (List.mem_singleton.2 rfl)
      omega
    · rw [List.mem_singleton.1 hs] at hin
      exact hin.2

theorem next?_least (h : l.Denotes S) (p : Nat) : Least (fun q => p ≤ q ∧ q ∈ S) (l.next? p) := by
  rw [next?]
  rcases h.run_at_place p with ⟨hnone, hlt⟩ | ⟨r, hr, hsome, hlast, hfirst⟩
  · rw [hnone]
    rintro q ⟨hpq, hq⟩
    exact Nat.not_lt.2 hpq (hlt q hq)
  · have hrun := h.1.2 r hr
    rw [hsome]
    refine ⟨⟨Nat.le_max_right _ _, (h.2 _).1 ⟨r, hr, Nat.le_max_left _ _, ?_⟩⟩, ?_⟩
    · exact Nat.max_le.2 ⟨hrun.1, hlast⟩
    · rintro q ⟨hpq, hq⟩
      exact Nat.max_le.2 ⟨hfirst q hq hpq, hpq⟩

theorem previous?_greatest (h : l.Denotes S) (p : Nat) :
    Greatest (fun q => q ≤ p ∧ q ∈ S) (l.previous? p) := by
  rw [previous?]
  rcases h.run_upTo p with ⟨hnone, hlt⟩ | ⟨r, hr, hsome, hfirst, hlast⟩
  · rw [hnone]
    rintro q ⟨hqp, hq⟩
    exact Nat.not_lt.2 hqp (hlt q hq)
  · have hrun := h.1.2 r hr
    rw [hsome]
    refine ⟨⟨Nat.min_le_right _ _, (h.2 _).1 ⟨r, hr, ?_, Nat.min_le_left _ _⟩⟩, ?_⟩
    · exact Nat.le_min.2 ⟨hrun.1, hfirst⟩
    · rintro q ⟨hqp, hq⟩
      exact Nat.le_min.2 ⟨hlast q hq hqp, hqp⟩

theorem Denotes.succ_last_notMem (h : l.Denotes S) {r : Run} (hr : r ∈ l.toList) :
    r.last + 1 ∉ S := by
  rw [← h.covered]
  exact succ_last_notMem_covered h.1.1 (fun r hr => (h.1.2 r hr).1) hr

theorem pred_first_notMem_covered {runs : List Run} (hapart : Apart runs)
    (hruns : ∀ r ∈ runs, r.first ≤ r.last) {r : Run} (hr : r ∈ runs) {q : Nat}
    (hq : r.first = q + 1) : q ∉ covered runs := by
  induction runs with
  | nil => exact absurd hr List.not_mem_nil
  | cons x rest ih =>
    have hx := hruns x List.mem_cons_self
    rw [mem_covered_cons]
    rintro (hin | hin)
    · rcases List.mem_cons.1 hr with rfl | hr
      · omega
      · have hlt := (List.pairwise_cons.1 hapart).1 r hr
        omega
    · rcases List.mem_cons.1 hr with rfl | hr
      · have hlt := hapart.before hin
        omega
      · exact ih hapart.tail (fun s hs => hruns s (List.mem_cons_of_mem x hs)) hr hin

theorem nextAbsent?_least (h : l.Denotes S) (hp : p < chunkSize) :
    Least (fun q => p ≤ q ∧ q < chunkSize ∧ q ∉ S) (l.nextAbsent? p) := by
  have hself : p ∉ S → Least (fun q => p ≤ q ∧ q < chunkSize ∧ q ∉ S) (some p) :=
    fun hnot => ⟨⟨Nat.le_refl p, hp, hnot⟩, fun q hq => hq.1⟩
  rw [nextAbsent?]
  rcases h.run_at_place p with ⟨hnone, hlt⟩ | ⟨r, hr, hsome, hlast, hfirst⟩
  · rw [hnone]
    exact hself fun hmem => Nat.lt_irrefl p (hlt p hmem)
  · have hin : ∀ q, r.first ≤ q → q ≤ r.last → q ∈ S := fun q hq hq' => (h.2 q).1 ⟨r, hr, hq, hq'⟩
    rw [hsome]
    dsimp only
    split
    · rename_i hle
      split
      · rename_i hinside
        refine ⟨⟨by omega, Nat.succ_lt_succ hinside, h.succ_last_notMem hr⟩, ?_⟩
        rintro q ⟨hpq, -, hq⟩
        by_contra hlt
        exact hq (hin q (hle.trans hpq) (by omega))
      · rename_i hend
        rintro q ⟨hpq, hlt, hq⟩
        exact hq (hin q (hle.trans hpq) ((Nat.le_of_lt_succ hlt).trans (Nat.not_lt.1 hend)))
    · rename_i hgt
      exact hself fun hmem => hgt (hfirst p hmem (Nat.le_refl p))

theorem previousAbsent?_greatest (h : l.Denotes S) (p : Nat) :
    Greatest (fun q => q ≤ p ∧ q ∉ S) (l.previousAbsent? p) := by
  have hself : p ∉ S → Greatest (fun q => q ≤ p ∧ q ∉ S) (some p) :=
    fun hnot => ⟨⟨Nat.le_refl p, hnot⟩, fun q hq => hq.1⟩
  rw [previousAbsent?]
  rcases h.run_upTo p with ⟨hnone, hlt⟩ | ⟨r, hr, hsome, hfirst, hlast⟩
  · rw [hnone]
    exact hself fun hmem => Nat.lt_irrefl p (hlt p hmem)
  · have hin : ∀ q, r.first ≤ q → q ≤ r.last → q ∈ S := fun q hq hq' => (h.2 q).1 ⟨r, hr, hq, hq'⟩
    rw [hsome]
    dsimp only
    split
    · rename_i hle
      cases hstart : r.first with
      | zero =>
        rintro q ⟨hqp, hq⟩
        exact hq (hin q (by omega) (hqp.trans hle))
      | succ lower =>
        have hnot := pred_first_notMem_covered h.1.1 (fun r hr => (h.1.2 r hr).1) hr hstart
        rw [h.covered] at hnot
        refine ⟨⟨by omega, hnot⟩, ?_⟩
        rintro q ⟨hqp, hq⟩
        by_contra hlt
        exact hq (hin q (by omega) (hqp.trans hle))
    · rename_i hgt
      exact hself fun hmem => hgt (hlast p hmem (Nat.le_refl p))

end RunList

/-! All representations. -/

namespace Chunk

variable {c : Chunk}

theorem next?_least (h : c.Denotes S) (p : Nat) : Least (fun q => p ≤ q ∧ q ∈ S) (c.next? p) := by
  cases c with
  | array a => exact SortedArray.next?_least h p
  | block b => exact Block.next?_least h p
  | runs l => exact RunList.next?_least h p

theorem previous?_greatest (h : c.Denotes S) (p : Nat) :
    Greatest (fun q => q ≤ p ∧ q ∈ S) (c.previous? p) := by
  cases c with
  | array a => exact SortedArray.previous?_greatest h p
  | block b => exact Block.previous?_greatest h p
  | runs l => exact RunList.previous?_greatest h p

theorem nextAbsent?_least (h : c.Denotes S) (hp : p < chunkSize) :
    Least (fun q => p ≤ q ∧ q < chunkSize ∧ q ∉ S) (c.nextAbsent? p) := by
  cases c with
  | array a => exact SortedArray.nextAbsent?_least h p
  | block b => exact Block.nextAbsent?_least h hp
  | runs l => exact RunList.nextAbsent?_least h hp

theorem previousAbsent?_greatest (h : c.Denotes S) (p : Nat) :
    Greatest (fun q => q ≤ p ∧ q ∉ S) (c.previousAbsent? p) := by
  cases c with
  | array a => exact SortedArray.previousAbsent?_greatest h p
  | block b => exact Block.previousAbsent?_greatest h p
  | runs l => exact RunList.previousAbsent?_greatest h p

end Chunk

end ChunkedSet
