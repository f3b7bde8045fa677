import Mathlib.Data.Finset.Sort
import ChunkedSet.Chunk.Valid
import ChunkedSet.Proofs.WordsScan

/-!
# Chunks and the sets they denote

A representation denotes a finite set if it is valid and its members are the elements of the set.
The size, the number of runs and the listing of a representation then depend on the set alone.
-/

namespace ChunkedSet

namespace SortedArray

def Denotes (a : SortedArray) (S : Finset Nat) : Prop := a.Valid ∧ ∀ p, p ∈ a ↔ p ∈ S

variable {a : SortedArray} {S : Finset Nat}

theorem Valid.denotes (h : a.Valid) : a.Denotes a.toList.toFinset :=
  ⟨h, fun p => by rw [List.mem_toFinset, mem_def]⟩

theorem denotes_of_list {list : List Nat} (hsorted : list.Pairwise (· < ·))
    (hlt : ∀ p ∈ S, p < chunkSize) (hmem : ∀ p, p ∈ list ↔ p ∈ S) (ha : a.toList = list) :
    a.Denotes S := by
  subst ha
  exact ⟨⟨hsorted, fun p hp => hlt p ((hmem p).1 hp)⟩, hmem⟩

theorem Denotes.lt (h : a.Denotes S) {p : Nat} (hp : p ∈ S) : p < chunkSize :=
  h.1.2 p ((h.2 p).2 hp)

theorem Denotes.mem_toList (h : a.Denotes S) {p : Nat} : p ∈ a.toList ↔ p ∈ S := h.2 p

theorem Denotes.toFinset (h : a.Denotes S) : a.toList.toFinset = S := by
  ext p
  rw [List.mem_toFinset, h.mem_toList]

theorem Denotes.size (h : a.Denotes S) : a.size = S.card := by
  rw [← h.toFinset, List.toFinset_card_of_nodup h.1.1.nodup]
  rfl

theorem Denotes.isEmpty (h : a.Denotes S) : a.isEmpty = decide (S = ∅) := by
  have hsize : a.values.size = S.card := h.size
  rw [Bool.eq_iff_iff, decide_eq_true_eq, ← Finset.card_eq_zero, ← hsize, SortedArray.isEmpty,
    Array.isEmpty_iff_size_eq_zero]

theorem empty_denotes : empty.Denotes ∅ := by
  refine denotes_of_list List.Pairwise.nil ?_ ?_ rfl <;> simp

theorem Denotes.toList_eq_sort (h : a.Denotes S) : a.toList = S.sort (· ≤ ·) := by
  refine h.1.1.eq_of_mem_iff S.sortedLT_sort.pairwise fun p => ?_
  rw [h.mem_toList, Finset.mem_sort]

end SortedArray

namespace Block

def Denotes (b : Block) (S : Finset Nat) : Prop := b.Valid ∧ ∀ p, p ∈ b ↔ p ∈ S

variable {b : Block} {S : Finset Nat}

theorem mem_iff_contains {p : Nat} : p ∈ b ↔ b.words.contains p = true := by
  rw [mem_def, and_iff_right_iff_imp]
  exact Words.lt_of_contains

theorem ofWords_denotes (ws : Words) : (ofWords ws).Denotes ws.support :=
  ⟨rfl, fun p => by rw [mem_iff_contains, Words.mem_support, ofWords]⟩

theorem Valid.denotes (h : b.Valid) : b.Denotes b.words.support :=
  ⟨h, fun p => by rw [mem_iff_contains, Words.mem_support]⟩

theorem denotes_of_words (hsize : b.size = S.card) (hlt : ∀ p ∈ S, p < chunkSize)
    (hmem : ∀ p < chunkSize, b.words.contains p = decide (p ∈ S)) : b.Denotes S := by
  have hiff : ∀ p, p ∈ b ↔ p ∈ S := fun p => by
    rw [mem_def]
    constructor
    · intro h
      have hbit := h.2
      rw [hmem p h.1, decide_eq_true_eq] at hbit
      exact hbit
    · intro hp
      have hps := hlt p hp
      rw [hmem p hps, decide_eq_true_eq]
      exact ⟨hps, hp⟩
  refine ⟨?_, hiff⟩
  have hsupport : b.words.support = S := by
    ext p
    rw [Words.mem_support, ← mem_iff_contains, hiff]
  rw [Valid, Words.popcount_eq_card, hsupport, hsize]

theorem Denotes.lt (h : b.Denotes S) {p : Nat} (hp : p ∈ S) : p < chunkSize := ((h.2 p).2 hp).1

theorem Denotes.contains (h : b.Denotes S) (p : Nat) : b.words.contains p = decide (p ∈ S) := by
  rw [Bool.eq_iff_iff, decide_eq_true_eq, ← h.2 p, mem_iff_contains]

theorem Denotes.support (h : b.Denotes S) : b.words.support = S := by
  ext p
  rw [Words.mem_support, h.contains, decide_eq_true_eq]

theorem Denotes.size (h : b.Denotes S) : b.size = S.card := by
  have hvalid : b.size = b.words.popcount := h.1
  rw [hvalid, Words.popcount_eq_card, h.support]

theorem Denotes.isEmpty (h : b.Denotes S) : (b.size == 0) = decide (S = ∅) := by
  rw [Bool.eq_iff_iff, decide_eq_true_eq, beq_iff_eq, h.size, Finset.card_eq_zero]

theorem empty_denotes : empty.Denotes ∅ := by
  refine denotes_of_words rfl (by simp) fun p _ => ?_
  rw [empty, Words.contains_empty]
  simp

theorem Denotes.positions_eq_sort (h : b.Denotes S) : b.positions.toList = S.sort (· ≤ ·) := by
  refine (Words.pairwise_positions b.words).eq_of_mem_iff S.sortedLT_sort.pairwise fun p => ?_
  rw [Words.mem_positions, Finset.mem_sort, h.contains, decide_eq_true_eq]

theorem Denotes.runCount (h : b.Denotes S) : b.words.runCount = (starts S).card := by
  rw [Words.runCount_eq_card, h.support]

end Block

namespace RunList

def Denotes (l : RunList) (S : Finset Nat) : Prop := l.Valid ∧ ∀ p, p ∈ l ↔ p ∈ S

def covered : List Run → Finset Nat
  | [] => ∅
  | r :: rest => Finset.Icc r.first r.last ∪ covered rest

theorem mem_covered {runs : List Run} {p : Nat} : p ∈ covered runs ↔ ∃ r ∈ runs, p ∈ r := by
  induction runs with
  | nil => simp [covered]
  | cons r rest ih =>
    rw [covered, Finset.mem_union, Finset.mem_Icc, ih]
    simp [Run.mem_def]

variable {l : RunList} {S : Finset Nat}

theorem Valid.denotes (h : l.Valid) : l.Denotes (covered l.toList) :=
  ⟨h, fun p => by rw [mem_covered, mem_def]⟩

theorem denotes_of_list {runs : List Run} (hapart : Apart runs)
    (hruns : ∀ r ∈ runs, r.first ≤ r.last ∧ r.last < chunkSize)
    (hmem : ∀ p, (∃ r ∈ runs, p ∈ r) ↔ p ∈ S) (hl : l.toList = runs) : l.Denotes S := by
  subst hl
  exact ⟨⟨hapart, hruns⟩, hmem⟩

theorem Denotes.lt (h : l.Denotes S) {p : Nat} (hp : p ∈ S) : p < chunkSize := by
  obtain ⟨r, hr, hmem⟩ := (h.2 p).2 hp
  have hlast := (h.1.2 r hr).2
  exact Nat.lt_of_le_of_lt hmem.2 hlast

theorem Denotes.covered (h : l.Denotes S) : RunList.covered l.toList = S := by
  ext p
  rw [mem_covered, ← h.2 p, mem_def]

theorem Apart.before {r : Run} {rest : List Run} (h : Apart (r :: rest)) {p : Nat}
    (hp : p ∈ RunList.covered rest) : r.last + 1 < p := by
  obtain ⟨s, hs, hmem⟩ := mem_covered.1 hp
  have hlt := (List.pairwise_cons.1 h).1 s hs
  exact Nat.lt_of_lt_of_le hlt hmem.1

theorem Apart.tail {r : Run} {rest : List Run} (h : Apart (r :: rest)) : Apart rest :=
  (List.pairwise_cons.1 h).2

theorem Apart.sorted {runs : List Run} (h : Apart runs) :
    runs.Pairwise fun r s => r.last < s.first :=
  h.imp fun hlt => (Nat.lt_succ_self _).trans hlt

/-- Like `Apart.before`, for runs that may touch. -/
theorem last_lt_of_covered {r : Run} {rest : List Run}
    (hsorted : (r :: rest).Pairwise fun r s => r.last < s.first) {p : Nat}
    (hp : p ∈ RunList.covered rest) : r.last < p := by
  obtain ⟨s, hs, hmem⟩ := mem_covered.1 hp
  have hlt := (List.pairwise_cons.1 hsorted).1 s hs
  exact Nat.lt_of_lt_of_le hlt hmem.1

theorem Apart.disjoint {r : Run} {rest : List Run} (h : Apart (r :: rest)) :
    Disjoint (Finset.Icc r.first r.last) (RunList.covered rest) := by
  rw [Finset.disjoint_left]
  intro p hp hrest
  have hlt := h.before hrest
  have hle := (Finset.mem_Icc.1 hp).2
  omega

/-- Counts that are taken run by run add up to that of all covered positions. -/
theorem sum_eq_card_filter {runs : List Run} (hapart : Apart runs) (P : Nat → Prop)
    [DecidablePred P] {f : Run → Nat}
    (hf : ∀ r ∈ runs, f r = ((Finset.Icc r.first r.last).filter P).card) :
    (runs.map f).sum = ((covered runs).filter P).card := by
  induction runs with
  | nil => rfl
  | cons r rest ih =>
    have hrest := ih hapart.tail fun s hs => hf s (List.mem_cons_of_mem r hs)
    rw [List.map_cons, List.sum_cons, hf r List.mem_cons_self, hrest, covered,
      Finset.filter_union, Finset.card_union_of_disjoint]
    exact Finset.disjoint_filter_filter hapart.disjoint

theorem size_eq_sum (l : RunList) : l.size = (l.toList.map Run.size).sum := by
  rw [size, ← Array.foldl_toList, Words.foldl_add_eq_sum, Nat.zero_add]
  rfl

theorem Denotes.size (h : l.Denotes S) : l.size = S.card := by
  have hsize : ∀ r ∈ l.toList, r.size = ((Finset.Icc r.first r.last).filter fun _ => True).card := by
    intro r hr
    have hle := (h.1.2 r hr).1
    rw [Finset.filter_true, Nat.card_Icc, Run.size]
    omega
  rw [size_eq_sum, sum_eq_card_filter h.1.1 _ hsize, Finset.filter_true, h.covered]

theorem starts_covered {r : Run} {rest : List Run} (hapart : Apart (r :: rest))
    (hr : r.first ≤ r.last) :
    starts (RunList.covered (r :: rest)) =
      Insert.insert r.first (starts (RunList.covered rest)) := by
  ext p
  rw [mem_starts, Finset.mem_insert, mem_starts, RunList.covered, Finset.mem_union,
    Finset.mem_union, Finset.mem_Icc, Finset.mem_Icc]
  have hp := hapart.before (p := p)
  have hpred := hapart.before (p := p - 1)
  constructor
  · intro h
    obtain ⟨hin | hrest, hstart⟩ := h
    · left
      omega
    · right
      refine ⟨hrest, hstart.imp_right fun hnot hmem => ?_⟩
      exact hnot (Or.inr hmem)
  · intro h
    rcases h with rfl | ⟨hrest, hstart⟩
    · refine ⟨Or.inl ⟨Nat.le_refl _, hr⟩, ?_⟩
      rcases Nat.eq_zero_or_pos r.first with hz | hpos
      · exact Or.inl hz
      · right
        intro h
        rcases h with hin | hrest
        · omega
        · have hlt := hpred hrest
          omega
    · have hlt := hp hrest
      refine ⟨Or.inr hrest, ?_⟩
      rcases hstart with hz | hnot
      · exact Or.inl hz
      · right
        intro h
        rcases h with hin | hin
        · omega
        · exact hnot hin

theorem length_eq_card_starts {runs : List Run} (hapart : Apart runs)
    (hruns : ∀ r ∈ runs, r.first ≤ r.last) :
    runs.length = (starts (RunList.covered runs)).card := by
  induction runs with
  | nil => rfl
  | cons r rest ih =>
    have hnot : r.first ∉ starts (RunList.covered rest) := fun hin => by
      have hlt := hapart.before (mem_starts.1 hin).1
      have hle := hruns r List.mem_cons_self
      omega
    rw [starts_covered hapart (hruns r List.mem_cons_self), Finset.card_insert_of_notMem hnot,
      List.length_cons, ih hapart.tail fun s hs => hruns s (List.mem_cons_of_mem r hs)]

theorem Denotes.runCount (h : l.Denotes S) : l.runCount = (starts S).card := by
  rw [← h.covered, ← length_eq_card_starts h.1.1 fun r hr => (h.1.2 r hr).1]
  rfl

theorem Denotes.isEmpty (h : l.Denotes S) : l.isEmpty = decide (S = ∅) := by
  rw [Bool.eq_iff_iff, decide_eq_true_eq, RunList.isEmpty, Array.isEmpty_iff, ← h.covered]
  constructor
  · intro hempty
    rw [toList, hempty]
    rfl
  · intro hempty
    rcases hlist : l.toList with _ | ⟨r, rest⟩
    · exact Array.toList_eq_nil_iff.1 hlist
    · have hr := h.1.2 r (by rw [hlist]; exact List.mem_cons_self)
      rw [hlist, RunList.covered] at hempty
      have hin : r.first ∈ (∅ : Finset Nat) := by
        rw [← hempty, Finset.mem_union, Finset.mem_Icc]
        exact Or.inl ⟨Nat.le_refl _, hr.1⟩
      exact absurd hin (Finset.notMem_empty _)

theorem empty_denotes : empty.Denotes ∅ :=
  denotes_of_list List.Pairwise.nil (by simp) (by simp) rfl

theorem ofRange_denotes {lo hi : Nat} (hle : lo ≤ hi) (hhi : hi < chunkSize) :
    (ofRange lo hi).Denotes (Finset.Icc lo hi) := by
  refine denotes_of_list (List.pairwise_singleton _ _) ?_ ?_ rfl
  · intro r hr
    rw [List.mem_singleton.1 hr]
    exact ⟨hle, hhi⟩
  · intro p
    simp [Run.mem_def]

end RunList

namespace Chunk

def Denotes (c : Chunk) (S : Finset Nat) : Prop := c.Valid ∧ ∀ p, p ∈ c ↔ p ∈ S

variable {c : Chunk} {S T : Finset Nat}

theorem Valid.denotes (h : c.Valid) : ∃ S, c.Denotes S := by
  cases c with
  | array a => exact ⟨_, SortedArray.Valid.denotes h⟩
  | block b => exact ⟨_, Block.Valid.denotes h⟩
  | runs l => exact ⟨_, RunList.Valid.denotes h⟩

theorem Denotes.lt (h : c.Denotes S) {p : Nat} (hp : p ∈ S) : p < chunkSize := by
  cases c with
  | array a => exact SortedArray.Denotes.lt h hp
  | block b => exact Block.Denotes.lt h hp
  | runs l => exact RunList.Denotes.lt h hp

theorem Denotes.size (h : c.Denotes S) : c.size = S.card := by
  cases c with
  | array a => exact SortedArray.Denotes.size h
  | block b => exact Block.Denotes.size h
  | runs l => exact RunList.Denotes.size h

theorem Denotes.isEmpty (h : c.Denotes S) : c.isEmpty = decide (S = ∅) := by
  cases c with
  | array a => exact SortedArray.Denotes.isEmpty h
  | block b => exact Block.Denotes.isEmpty h
  | runs l => exact RunList.Denotes.isEmpty h

theorem Denotes.unique (h : c.Denotes S) (h' : c.Denotes T) : S = T := by
  ext p
  rw [← h.2 p, h'.2 p]

theorem Denotes.isEmpty_eq_false (h : c.Denotes S) (hS : S.Nonempty) : c.isEmpty = false := by
  rw [h.isEmpty, decide_eq_false hS.ne_empty]

theorem Denotes.nonempty (h : c.Denotes S) (hc : c.isEmpty = false) : S.Nonempty := by
  rw [h.isEmpty, decide_eq_false_iff_not] at hc
  exact Finset.nonempty_iff_ne_empty.2 hc

end Chunk

end ChunkedSet
