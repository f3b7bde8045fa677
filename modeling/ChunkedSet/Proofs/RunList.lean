import ChunkedSet.Proofs.Block

/-!
# Lists of runs as sets

A range splits a list of runs into those before it, those it meets and those behind it. Changes
of a range replace the middle part and leave the others alone.
-/

namespace ChunkedSet.RunList

variable {l : RunList} {S : Finset Nat} {lo hi : Nat}

theorem covered_append (A B : List Run) : covered (A ++ B) = covered A ∪ covered B := by
  ext p
  simp only [mem_covered, Finset.mem_union, List.mem_append]
  grind

theorem covered_singleton (r : Run) : covered [r] = Finset.Icc r.first r.last := by
  rw [covered, covered, Finset.union_empty]

theorem Valid.pairwise (h : l.Valid) :
    l.toList.Pairwise fun r s => r.first ≤ r.last ∧ r.last + 1 < s.first ∧ s.first ≤ s.last := by
  refine h.1.imp_of_mem fun hr hs hrs => ?_
  exact ⟨(h.2 _ hr).1, hrs, (h.2 _ hs).1⟩

/-- A list of runs cut at the runs that satisfy `p` and the runs that satisfy `q`, where every
run with `p` also has `q`. -/
theorem exists_parts (h : l.Valid) {p q : Run → Bool}
    (hp : ∀ r s : Run, r.first ≤ r.last ∧ r.last + 1 < s.first ∧ s.first ≤ s.last →
      p s = true → p r = true)
    (hq : ∀ r s : Run, r.first ≤ r.last ∧ r.last + 1 < s.first ∧ s.first ≤ s.last →
      q s = true → q r = true)
    (hpq : ∀ r ∈ l.toList, p r = true → q r = true) :
    ∃ A M B, l.toList = A ++ M ++ B ∧
      (l.runs.extract 0 (partitionPoint p l.runs)).toList = A ∧
      (l.runs.extract (partitionPoint p l.runs)
        (partitionPointIn q l.runs (partitionPoint p l.runs) l.runs.size)).toList = M ∧
      (l.runs.extract (partitionPointIn q l.runs (partitionPoint p l.runs) l.runs.size)
        l.runs.size).toList = B ∧
      (∀ r ∈ A, p r = true) ∧ (∀ r ∈ M, p r = false ∧ q r = true) ∧ ∀ r ∈ B, q r = false := by
  have hsorted : l.runs.toList.Pairwise fun r s =>
    r.first ≤ r.last ∧ r.last + 1 < s.first ∧ s.first ≤ s.last := h.pairwise
  have hstart : partitionPoint p l.runs ≤ l.runs.size := partitionPoint_le_size _ _
  have htakep := take_partitionPoint hsorted hp
  have htakeq := take_partitionPoint hsorted hq
  have hdropp := drop_partitionPoint hsorted hp
  have hdropq := drop_partitionPoint hsorted hq
  have hbefore : ∀ r ∈ l.runs.toList.take (partitionPoint p l.runs), q r = true := fun r hr => by
    rw [htakep, List.mem_filter] at hr
    exact hpq r hr.1 hr.2
  have hle : partitionPoint p l.runs ≤ partitionPoint q l.runs := by
    rw [← partitionPointIn_eq hsorted hq hstart hbefore]
    exact partitionPointBetween_ge _ _ _ _ _
  rw [partitionPointIn_eq hsorted hq hstart hbefore]
  refine ⟨l.runs.toList.take (partitionPoint p l.runs),
    (l.runs.toList.take (partitionPoint q l.runs)).drop (partitionPoint p l.runs),
    l.runs.toList.drop (partitionPoint q l.runs), ?_, by simp,
    by simp [List.drop_take], by simp, fun r hr => ?_, fun r hr => ?_, fun r hr => ?_⟩
  · have hfront : l.runs.toList.take (partitionPoint p l.runs) =
        (l.runs.toList.take (partitionPoint q l.runs)).take (partitionPoint p l.runs) := by
      rw [List.take_take, Nat.min_eq_left hle]
    rw [hfront, List.take_append_drop, List.take_append_drop, toList]
  · rw [htakep, List.mem_filter] at hr
    exact hr.2
  · have hin : r ∈ l.runs.toList.take (partitionPoint q l.runs) := List.mem_of_mem_drop hr
    have hout : r ∈ l.runs.toList.drop (partitionPoint p l.runs) := by
      rw [List.drop_take] at hr
      exact List.mem_of_mem_take hr
    rw [htakeq, List.mem_filter] at hin
    rw [hdropp, List.mem_filter, Bool.not_eq_true'] at hout
    exact ⟨hout.2, hin.2⟩
  · rw [hdropq, List.mem_filter, Bool.not_eq_true'] at hr
    exact hr.2

theorem overlap_eq_card (r : Run) (lo hi : Nat) :
    r.overlap lo hi = (Finset.Icc r.first r.last ∩ Finset.Icc lo hi).card := by
  have hset : Finset.Icc r.first r.last ∩ Finset.Icc lo hi =
      Finset.Icc (max r.first lo) (min r.last hi) := by
    ext p
    simp only [Finset.mem_inter, Finset.mem_Icc]
    omega
  rw [hset, Nat.card_Icc, Run.overlap]
  grind

theorem sum_overlap_eq_card {runs : List Run} (hapart : Apart runs) (lo hi : Nat) :
    (runs.map fun r => r.overlap lo hi).sum = (covered runs ∩ Finset.Icc lo hi).card := by
  rw [← Finset.filter_mem_eq_inter]
  apply sum_eq_card_filter hapart
  intro r _
  rw [Finset.filter_mem_eq_inter, overlap_eq_card]

theorem totalOverlap_eq_sum (met : Array Run) (lo hi : Nat) :
    totalOverlap met lo hi = (met.toList.map fun r => r.overlap lo hi).sum := by
  rw [totalOverlap, ← Array.foldl_toList, Words.foldl_add_eq_sum, Nat.zero_add]

theorem apart_append {A B : List Run} :
    Apart (A ++ B) ↔ Apart A ∧ Apart B ∧ ∀ r ∈ A, ∀ s ∈ B, r.last + 1 < s.first :=
  List.pairwise_append

theorem apart_singleton (r : Run) : Apart [r] := List.pairwise_singleton _ _

/-- What the runs of a window have in common with the range is what the whole list has. -/
theorem totalOverlap_middle (h : l.Denotes S) {A M B : List Run} (hl : l.toList = A ++ M ++ B)
    {met : Array Run} (hmet : met.toList = M)
    (hA : ∀ r ∈ A, r.last < lo) (hB : ∀ r ∈ B, hi < r.first) :
    totalOverlap met lo hi = (S ∩ Finset.Icc lo hi).card := by
  have hapart := h.1.1
  have hruns := h.1.2
  rw [hl] at hapart hruns
  have hM := (apart_append.1 (apart_append.1 hapart).1).2.1
  rw [totalOverlap_eq_sum, hmet, sum_overlap_eq_card hM, ← h.covered, hl]
  refine congrArg Finset.card (Finset.ext fun p => ?_)
  simp only [covered_append, Finset.mem_inter, Finset.mem_union, Finset.mem_Icc]
  constructor
  · intro hp
    exact ⟨Or.inl (Or.inr hp.1), hp.2⟩
  · intro hp
    rcases hp.1 with (hin | hin) | hin
    · obtain ⟨r, hr, hmem⟩ := mem_covered.1 hin
      have hlt := hA r hr
      have hle := hmem.2
      omega
    · exact ⟨hin, hp.2⟩
    · obtain ⟨r, hr, hmem⟩ := mem_covered.1 hin
      have hlt := hB r hr
      have hle := hmem.1
      omega

theorem replace_denotes (h : l.Denotes S) {A M B N : List Run} (hl : l.toList = A ++ M ++ B)
    (hN : Apart N) (hNruns : ∀ r ∈ N, r.first ≤ r.last ∧ r.last < chunkSize)
    (hAN : ∀ r ∈ A, ∀ s ∈ N, r.last + 1 < s.first) (hNB : ∀ r ∈ N, ∀ s ∈ B, r.last + 1 < s.first)
    {m : RunList} (hm : m.toList = A ++ N ++ B) :
    m.Denotes (covered A ∪ covered N ∪ covered B) := by
  have hapart := h.1.1
  have hruns := h.1.2
  rw [hl] at hapart hruns
  have hAMB := apart_append.1 hapart
  have hAM := apart_append.1 hAMB.1
  have hset : covered A ∪ covered N ∪ covered B = covered (A ++ N ++ B) := by
    rw [covered_append, covered_append]
  rw [hset]
  refine denotes_of_list (apart_append.2 ⟨apart_append.2 ⟨hAM.1, hN, hAN⟩, hAMB.2.1, ?_⟩) ?_
    (fun p => mem_covered.symm) hm
  · intro r hr s hs
    rcases List.mem_append.1 hr with hr | hr
    · exact hAMB.2.2 r (List.mem_append_left M hr) s hs
    · exact hNB r hr s hs
  · intro r hr
    rcases List.mem_append.1 hr with hr | hr
    · rcases List.mem_append.1 hr with hr | hr
      · exact hruns r (by simp [hr])
      · exact hNruns r hr
    · exact hruns r (by simp [hr])

theorem Apart.exists_ends {M : List Run} (hapart : Apart M) (hne : M ≠ []) :
    ∃ m ∈ M, ∃ z ∈ M, M[0]? = some m ∧ M.getLast? = some z ∧
      (∀ r ∈ M, r = m ∨ m.last + 1 < r.first) ∧ ∀ r ∈ M, r = z ∨ r.last + 1 < z.first := by
  obtain ⟨m, rest, hfront⟩ := List.exists_cons_of_ne_nil hne
  obtain ⟨front, z, hback⟩ := M.eq_nil_or_concat'.resolve_left hne
  refine ⟨m, by simp [hfront], z, by simp [hback], by simp [hfront], by simp [hback],
    fun r hr => ?_, fun r hr => ?_⟩
  · rw [hfront] at hr hapart
    rcases List.mem_cons.1 hr with heq | hr
    · exact Or.inl heq
    · exact Or.inr ((List.pairwise_cons.1 hapart).1 r hr)
  · rw [hback] at hr hapart
    rcases List.mem_append.1 hr with hr | hr
    · exact Or.inr ((apart_append.1 hapart).2.2 r hr z (List.mem_singleton.2 rfl))
    · exact Or.inl (List.mem_singleton.1 hr)

def merged (lo hi : Nat) (M : List Run) : Run :=
  ⟨min lo (M[0]?.elim lo Run.first), max hi (M.getLast?.elim hi Run.last)⟩

theorem merged_ends (lo hi : Nat) {M : List Run} (hapart : Apart M) :
    ((merged lo hi M).first = lo ∨ ∃ m ∈ M, (merged lo hi M).first = m.first) ∧
      ((merged lo hi M).last = hi ∨ ∃ z ∈ M, (merged lo hi M).last = z.last) := by
  by_cases hne : M = []
  · subst hne
    exact ⟨Or.inl (Nat.min_self lo), Or.inl (Nat.max_self hi)⟩
  · obtain ⟨m, hm, z, hz, hfirst, hlast, -, -⟩ := hapart.exists_ends hne
    rw [merged, hfirst, hlast, Option.elim_some, Option.elim_some]
    refine ⟨?_, ?_⟩
    · rcases Nat.le_total lo m.first with hle | hle
      · exact Or.inl (Nat.min_eq_left hle)
      · exact Or.inr ⟨m, hm, Nat.min_eq_right hle⟩
    · rcases Nat.le_total z.last hi with hle | hle
      · exact Or.inl (Nat.max_eq_left hle)
      · exact Or.inr ⟨z, hz, Nat.max_eq_right hle⟩

theorem covered_merged (lo hi : Nat) {M : List Run} (hapart : Apart M)
    (hruns : ∀ r ∈ M, r.first ≤ r.last) (htouch : ∀ r ∈ M, lo ≤ r.last + 1 ∧ r.first ≤ hi + 1) :
    covered [merged lo hi M] = covered M ∪ Finset.Icc lo hi := by
  by_cases hne : M = []
  · subst hne
    rw [covered_singleton, covered, Finset.empty_union, merged]
    simp
  · obtain ⟨m, hm, z, hz, hfirst, hlast, hmfirst, hzlast⟩ := hapart.exists_ends hne
    have hmrun := hruns m hm
    have hzrun := hruns z hz
    have hmtouch := htouch m hm
    have hztouch := htouch z hz
    ext p
    rw [covered_singleton, Finset.mem_union, Finset.mem_Icc, Finset.mem_Icc, mem_covered, merged,
      hfirst, hlast]
    simp only [Option.elim_some, Run.mem_def]
    constructor
    · intro hp
      by_cases hlow : p < lo
      · exact Or.inl ⟨m, hm, by omega⟩
      · by_cases hhigh : hi < p
        · exact Or.inl ⟨z, hz, by omega⟩
        · exact Or.inr (by omega)
    · intro hp
      rcases hp with ⟨r, hr, hmem⟩ | hp
      · have hf : m.first ≤ r.first := by
          rcases hmfirst r hr with rfl | hlt
          · exact Nat.le_refl _
          · omega
        have hl : r.last ≤ z.last := by
          rcases hzlast r hr with rfl | hlt
          · exact Nat.le_refl _
          · omega
        omega
      · omega

theorem insertRange_denotes (h : l.Denotes S) (hle : lo ≤ hi) (hhi : hi < chunkSize) :
    (l.insertRange lo hi).1.Denotes (S ∪ Finset.Icc lo hi) ∧
      (l.insertRange lo hi).2 = (Finset.Icc lo hi \ S).card := by
  obtain ⟨A, M, B, hl, hA, hM, hB, hpA, hpM, hpB⟩ :=
    exists_parts h.1 (p := fun r => decide (r.last + 1 < lo)) (q := fun r => decide (r.first ≤ hi + 1))
      (fun r s hrs hs => by simp only [decide_eq_true_eq] at *; omega)
      (fun r s hrs hs => by simp only [decide_eq_true_eq] at *; omega)
      (fun r hr hp => by have := h.1.2 r hr; simp only [decide_eq_true_eq] at *; omega)
  simp only [decide_eq_true_eq, decide_eq_false_iff_not] at hpA hpM hpB
  have hapart := h.1.1
  have hruns := h.1.2
  rw [hl] at hapart hruns
  have hAMB := apart_append.1 hapart
  have hAM := apart_append.1 hAMB.1
  have hrunsM : ∀ r ∈ M, r.first ≤ r.last ∧ r.last < chunkSize := fun r hr =>
    hruns r (by simp [hr])
  constructor
  · have hlist : (l.insertRange lo hi).1.toList = A ++ [merged lo hi M] ++ B := by
      simp only [toList, insertRange, Array.toList_append, Array.toList_push, hA, hB, merged]
      rw [← hM, Array.getElem?_toList, Array.getLast?_toList]
    obtain ⟨hlow, hhigh⟩ := merged_ends lo hi hAM.2.1
    have hcovered := covered_merged lo hi hAM.2.1 (fun r hr => (hrunsM r hr).1)
      fun r hr => ⟨Nat.not_lt.1 (hpM r hr).1, (hpM r hr).2⟩
    have hbefore : ∀ r ∈ A, r.last + 1 < (merged lo hi M).first := fun r hr => by
      rcases hlow with heq | ⟨m, hm, heq⟩
      · rw [heq]
        exact hpA r hr
      · rw [heq]
        exact hAM.2.2 r hr m hm
    have hbehind : ∀ s ∈ B, (merged lo hi M).last + 1 < s.first := fun s hs => by
      rcases hhigh with heq | ⟨z, hz, heq⟩
      · rw [heq]
        exact Nat.not_le.1 (hpB s hs)
      · rw [heq]
        exact hAMB.2.2 z (List.mem_append_right A hz) s hs
    have hbound : (merged lo hi M).last < chunkSize := by
      rcases hhigh with heq | ⟨z, hz, heq⟩
      · rwa [heq]
      · rw [heq]
        exact (hrunsM z hz).2
    have horder : (merged lo hi M).first ≤ (merged lo hi M).last :=
      (Nat.min_le_left lo _).trans (hle.trans (Nat.le_max_left hi _))
    have hden := replace_denotes h hl (apart_singleton (merged lo hi M))
      (fun r hr => by rw [List.mem_singleton.1 hr]; exact ⟨horder, hbound⟩)
      (fun r hr s hs => by rw [List.mem_singleton.1 hs]; exact hbefore r hr)
      (fun r hr s hs => by rw [List.mem_singleton.1 hr]; exact hbehind s hs) hlist
    have hset : covered A ∪ covered [merged lo hi M] ∪ covered B = S ∪ Finset.Icc lo hi := by
      rw [hcovered, ← Finset.union_assoc, Finset.union_right_comm, ← covered_append,
        ← covered_append, ← hl]
      exact congrArg (· ∪ Finset.Icc lo hi) h.covered
    rwa [hset] at hden
  · have hcount : (l.insertRange lo hi).2 = hi - lo + 1 - (S ∩ Finset.Icc lo hi).card := by
      rw [← totalOverlap_middle h hl hM (fun r hr => by have := hpA r hr; omega)
        (fun r hr => by have := hpB r hr; omega)]
      rfl
    rw [hcount, Finset.card_sdiff, Nat.card_Icc, show hi - lo + 1 = hi + 1 - lo by omega]

theorem insert_denotes (h : l.Denotes S) {p : Nat} (hp : p < chunkSize) :
    (l.insert p).1.Denotes (Insert.insert p S) ∧ (l.insert p).2 = decide (p ∉ S) := by
  obtain ⟨hden, hcount⟩ := insertRange_denotes h (Nat.le_refl p) hp
  have hset : S ∪ Finset.Icc p p = Insert.insert p S := by
    rw [Finset.Icc_self, Finset.union_comm, ← Finset.insert_eq]
  rw [hset] at hden
  refine ⟨hden, ?_⟩
  have hflag : (l.insert p).2 = ((l.insertRange p p).2 == 1) := rfl
  rw [hflag, hcount, Finset.Icc_self]
  by_cases hmem : p ∈ S
  · rw [Finset.sdiff_eq_empty_iff_subset.2 (Finset.singleton_subset_iff.2 hmem)]
    simp [hmem]
  · rw [Finset.sdiff_eq_self_of_disjoint (Finset.disjoint_singleton_left.2 hmem)]
    simp [hmem]

section

variable {c : Prop} [Decidable c] {r s : Run} {p : Nat}

theorem eq_of_mem_optional (h : s ∈ if c then [r] else []) : c ∧ s = r := by
  split at h
  · exact ⟨‹_›, List.mem_singleton.1 h⟩
  · exact absurd h List.not_mem_nil

theorem apart_optional : Apart (if c then [r] else []) := by
  split
  · exact apart_singleton r
  · exact List.Pairwise.nil

theorem mem_covered_optional : p ∈ covered (if c then [r] else []) ↔ c ∧ r.first ≤ p ∧ p ≤ r.last := by
  split
  · simp [covered_singleton, *]
  · simp [covered, *]

end

theorem remains_spec {M : List Run} {met : Array Run} (hmet : met.toList = M) (hapart : Apart M)
    (hruns : ∀ r ∈ M, r.first ≤ r.last ∧ r.last < chunkSize) (hle : lo ≤ hi)
    (hin : ∀ r ∈ M, lo ≤ r.last ∧ r.first ≤ hi) :
    Apart (remains met lo hi).toList ∧
      (∀ r ∈ (remains met lo hi).toList, r.first ≤ r.last ∧ r.last < chunkSize ∧
        (∃ m ∈ M, m.first ≤ r.first) ∧ ∃ z ∈ M, r.last ≤ z.last) ∧
      covered (remains met lo hi).toList = covered M \ Finset.Icc lo hi := by
  by_cases hne : M = []
  · subst hne
    have hnil : met = #[] := Array.toList_eq_nil_iff.1 hmet
    subst hnil
    exact ⟨List.Pairwise.nil, fun r hr => absurd hr (by simp [remains]), by simp [remains, covered]⟩
  · obtain ⟨m, hm, z, hz, hfirst, hlast, hmbefore, hzbehind⟩ := hapart.exists_ends hne
    have hmin := hin m hm
    have hzin := hin z hz
    have hmruns := hruns m hm
    have hzruns := hruns z hz
    have hlist : (remains met lo hi).toList =
        (if m.first < lo then [⟨m.first, lo - 1⟩] else []) ++
          (if hi < z.last then [⟨hi + 1, z.last⟩] else []) := by
      rw [remains, Array.toList_append, ← Array.getElem?_toList, ← Array.getLast?_toList, hmet,
        hfirst, hlast]
      simp only [Option.elim_some]
      split <;> split <;> rfl
    rw [hlist]
    refine ⟨apart_append.2 ⟨apart_optional, apart_optional, fun r hr s hs => ?_⟩, fun r hr => ?_,
      ?_⟩
    · obtain ⟨hlow, rfl⟩ := eq_of_mem_optional hr
      obtain ⟨hhigh, rfl⟩ := eq_of_mem_optional hs
      simp only
      omega
    · rcases List.mem_append.1 hr with hr | hr
      · obtain ⟨hlow, rfl⟩ := eq_of_mem_optional hr
        exact ⟨by simp only; omega, by simp only; omega, ⟨m, hm, Nat.le_refl _⟩,
          ⟨m, hm, by simp only; omega⟩⟩
      · obtain ⟨hhigh, rfl⟩ := eq_of_mem_optional hr
        exact ⟨by simp only; omega, by simp only; omega, ⟨z, hz, by simp only; omega⟩,
          ⟨z, hz, Nat.le_refl _⟩⟩
    · ext p
      rw [covered_append, Finset.mem_union, mem_covered_optional, mem_covered_optional,
        Finset.mem_sdiff, Finset.mem_Icc, mem_covered]
      simp only [Run.mem_def]
      constructor
      · intro hp
        rcases hp with hp | hp
        · exact ⟨⟨m, hm, by omega⟩, by omega⟩
        · exact ⟨⟨z, hz, by omega⟩, by omega⟩
      · intro hp
        obtain ⟨⟨r, hr, hmem⟩, hout⟩ := hp
        by_cases hlow : p < lo
        · left
          rcases hmbefore r hr with rfl | hlt
          · omega
          · omega
        · right
          rcases hzbehind r hr with rfl | hlt
          · omega
          · omega

theorem window_parts (h : l.Valid) (hle : lo ≤ hi) :
    ∃ A M B, l.toList = A ++ M ++ B ∧
      (l.runs.extract 0 (l.window lo hi).1).toList = A ∧
      (l.runs.extract (l.window lo hi).1 (l.window lo hi).2).toList = M ∧
      (l.runs.extract (l.window lo hi).2 l.runs.size).toList = B ∧
      (∀ r ∈ A, r.last < lo) ∧ (∀ r ∈ M, lo ≤ r.last ∧ r.first ≤ hi) ∧ ∀ r ∈ B, hi < r.first := by
  obtain ⟨A, M, B, hl, hA, hM, hB, hpA, hpM, hpB⟩ :=
    exists_parts h (p := fun r => decide (r.last < lo)) (q := fun r => decide (r.first ≤ hi))
      (fun r s hrs hs => by simp only [decide_eq_true_eq] at *; omega)
      (fun r s hrs hs => by simp only [decide_eq_true_eq] at *; omega)
      (fun r hr hp => by have := h.2 r hr; simp only [decide_eq_true_eq] at *; omega)
  simp only [decide_eq_true_eq, decide_eq_false_iff_not, Nat.not_lt, Nat.not_le] at hpA hpM hpB
  exact ⟨A, M, B, hl, hA, hM, hB, hpA, hpM, hpB⟩

theorem rangeSize_eq_card (h : l.Denotes S) (hle : lo ≤ hi) :
    l.rangeSize lo hi = (S ∩ Finset.Icc lo hi).card := by
  obtain ⟨A, M, B, hl, hA, hM, hB, hpA, hpM, hpB⟩ := window_parts h.1 hle
  exact totalOverlap_middle h hl hM hpA hpB

theorem eraseRange_denotes (h : l.Denotes S) (hle : lo ≤ hi) :
    (l.eraseRange lo hi).1.Denotes (S \ Finset.Icc lo hi) ∧
      (l.eraseRange lo hi).2 = (S ∩ Finset.Icc lo hi).card := by
  obtain ⟨A, M, B, hl, hA, hM, hB, hpA, hpM, hpB⟩ := window_parts h.1 hle
  refine ⟨?_, totalOverlap_middle h hl hM hpA hpB⟩
  have hapart := h.1.1
  have hruns := h.1.2
  rw [hl] at hapart hruns
  have hAMB := apart_append.1 hapart
  have hAM := apart_append.1 hAMB.1
  obtain ⟨hNapart, hNruns, hNcovered⟩ := remains_spec hM hAM.2.1
    (fun r hr => hruns r (by simp [hr])) hle hpM
  have hlist : (l.eraseRange lo hi).1.toList =
      A ++ (remains (l.runs.extract (l.window lo hi).1 (l.window lo hi).2) lo hi).toList ++ B := by
    simp only [toList, eraseRange, Array.toList_append, hA, hB]
  have hden := replace_denotes h hl hNapart (fun r hr => ⟨(hNruns r hr).1, (hNruns r hr).2.1⟩)
    (fun r hr s hs => by
      obtain ⟨-, -, ⟨m, hm, hlt⟩, -⟩ := hNruns s hs
      have hlt' := hAM.2.2 r hr m hm
      omega)
    (fun r hr s hs => by
      obtain ⟨-, -, -, z, hz, hlt⟩ := hNruns r hr
      have hlt' := hAMB.2.2 z (List.mem_append_right A hz) s hs
      omega) hlist
  have hset : covered A ∪ covered (remains (l.runs.extract (l.window lo hi).1
      (l.window lo hi).2) lo hi).toList ∪ covered B = S \ Finset.Icc lo hi := by
    have hAout : ∀ p ∈ covered A, p < lo := fun p hp => by
      obtain ⟨r, hr, hmem⟩ := mem_covered.1 hp
      exact Nat.lt_of_le_of_lt hmem.2 (hpA r hr)
    have hBout : ∀ p ∈ covered B, hi < p := fun p hp => by
      obtain ⟨r, hr, hmem⟩ := mem_covered.1 hp
      exact Nat.lt_of_lt_of_le (hpB r hr) hmem.1
    rw [hNcovered, ← h.covered, hl, covered_append, covered_append]
    ext p
    have hpA := hAout p
    have hpB := hBout p
    simp only [Finset.mem_union, Finset.mem_sdiff, Finset.mem_Icc]
    grind
  rwa [hset] at hden

theorem erase_denotes (h : l.Denotes S) (p : Nat) :
    (l.erase p).1.Denotes (S.erase p) ∧ (l.erase p).2 = decide (p ∈ S) := by
  obtain ⟨hden, hcount⟩ := eraseRange_denotes h (Nat.le_refl p)
  rw [Finset.Icc_self, ← Finset.erase_eq] at hden
  refine ⟨hden, ?_⟩
  have hflag : (l.erase p).2 = ((l.eraseRange p p).2 == 1) := rfl
  rw [hflag, hcount, Finset.Icc_self]
  by_cases hmem : p ∈ S
  · rw [Finset.inter_singleton_of_mem hmem]
    simp [hmem]
  · rw [Finset.inter_singleton_of_notMem hmem]
    simp [hmem]

/-! The last run. -/

theorem eq_nil_or_last (l : RunList) :
    l.toList = [] ∧ l.runs.back? = none ∨
      ∃ front r, l.toList = front ++ [r] ∧ l.runs.back? = some r ∧ l.runs.pop.toList = front :=
  ChunkedSet.eq_nil_or_last l.runs

theorem max?_greatest (h : l.Denotes S) : Greatest (· ∈ S) l.max? := by
  rcases eq_nil_or_last l with ⟨hl, hback⟩ | ⟨front, r, hl, hback, -⟩
  · rw [max?, hback, ← h.covered, hl]
    intro p
    exact Finset.notMem_empty p
  · have hapart := h.1.1
    have hr := h.1.2 r (by rw [hl]; simp)
    rw [hl] at hapart
    rw [max?, hback, ← h.covered, hl]
    refine ⟨?_, fun p hp => ?_⟩
    · simp only [covered_append, covered_singleton, Finset.mem_union, Finset.mem_Icc]
      exact Or.inr ⟨hr.1, Nat.le_refl _⟩
    · simp only [covered_append, covered_singleton, Finset.mem_union, Finset.mem_Icc] at hp
      rcases hp with hp | hp
      · obtain ⟨s, hs, hmem⟩ := mem_covered.1 hp
        have hlt := (apart_append.1 hapart).2.2 s hs r (List.mem_singleton.2 rfl)
        have hle := hmem.2
        omega
      · exact hp.2

theorem push_denotes {out : Array Run} (h : Denotes ⟨out⟩ S) {r : Run} (hr : r.first ≤ r.last)
    (hlast : r.last < chunkSize) (hgap : ∀ q ∈ S, q + 1 < r.first) :
    Denotes ⟨out.push r⟩ (S ∪ Finset.Icc r.first r.last) := by
  have hlasts : ∀ s ∈ out.toList, s.last ∈ S := fun s hs =>
    (h.2 s.last).1 ⟨s, hs, (h.1.2 s hs).1, Nat.le_refl _⟩
  have hcovered : covered out.toList = S := h.covered
  have hlist : (out.push r).toList = out.toList ++ [r] := Array.toList_push
  refine denotes_of_list (apart_append.2 ⟨h.1.1, apart_singleton r, fun s hs t ht => ?_⟩)
    (fun s hs => ?_) (fun p => ?_) hlist
  · rw [List.mem_singleton.1 ht]
    exact hgap _ (hlasts s hs)
  · rcases List.mem_append.1 hs with hs | hs
    · exact h.1.2 s hs
    · rw [List.mem_singleton.1 hs]
      exact ⟨hr, hlast⟩
  · rw [← mem_covered, ← hcovered, ← covered_singleton, ← covered_append]
    rfl

/-- A run that starts no earlier than any other extends the last one or is pushed behind it. -/
theorem absorb_denotes {out : Array Run} (h : Denotes ⟨out⟩ S) {r : Run} (hr : r.first ≤ r.last)
    (hlast : r.last < chunkSize) (hfirst : ∀ s ∈ out.toList, s.first ≤ r.first) :
    Denotes ⟨absorb out r⟩ (S ∪ Finset.Icc r.first r.last) := by
  have hmax := max?_greatest h
  rcases eq_nil_or_last ⟨out⟩ with ⟨-, hback⟩ | ⟨front, s, hl, hback, hpop⟩
  · rw [max?, hback] at hmax
    have habsorb : absorb out r = out.push r := by
      rw [absorb, show out.back? = none from hback]
    rw [habsorb]
    exact push_denotes h hr hlast fun q hq => absurd hq (hmax q)
  · rw [max?, hback] at hmax
    have hback : out.back? = some s := hback
    have hbehind : ∀ q ∈ S, q ≤ s.last := hmax.2
    have hin : s ∈ out.toList := by
      rw [show out.toList = front ++ [s] from hl]
      simp
    have hs := h.1.2 s hin
    have hle := hfirst s hin
    rw [absorb, hback]
    dsimp only
    split
    · rename_i htouch
      have hapart : Apart (front ++ [s]) := by
        rw [← hl]
        exact h.1.1
      have hfront := (apart_append.1 hapart).2.2
      have hden := replace_denotes h (A := front) (M := [s]) (B := [])
        (N := [⟨s.first, max s.last r.last⟩]) (by simp [hl]) (apart_singleton _)
        (fun t ht => by
          rw [List.mem_singleton.1 ht]
          exact ⟨le_max_of_le_left hs.1, max_lt hs.2 hlast⟩)
        (fun t ht u hu => by
          rw [List.mem_singleton.1 hu]
          exact hfront t ht s (List.mem_singleton.2 rfl)) (by simp)
        (m := ⟨out.pop.push ⟨s.first, max s.last r.last⟩⟩)
        (by rw [toList, Array.toList_push, hpop]; simp)
      have hset : covered front ∪ covered [⟨s.first, max s.last r.last⟩] ∪ covered [] =
          S ∪ Finset.Icc r.first r.last := by
        rw [← h.covered, hl, covered_append, covered_singleton, covered_singleton]
        ext q
        simp only [covered, Finset.mem_union, Finset.mem_Icc, Finset.notMem_empty, or_false]
        have hq : s.first ≤ q ∧ q ≤ max s.last r.last ↔
            (s.first ≤ q ∧ q ≤ s.last) ∨ (r.first ≤ q ∧ q ≤ r.last) := by omega
        rw [hq, or_assoc]
      rwa [hset] at hden
    · rename_i hgap
      refine push_denotes h hr hlast fun q hq => ?_
      have hq := hbehind q hq
      omega

theorem append_denotes (h : l.Denotes S) {p : Nat} (hp : p < chunkSize) (hlast : ∀ q ∈ S, q < p) :
    (l.append p).Denotes (Insert.insert p S) := by
  have hfirst : ∀ s ∈ l.runs.toList, s.first ≤ p := fun s hs => by
    have hs' := (h.1.2 s hs).1
    exact (hlast s.first ((h.2 _).1 ⟨s, hs, Nat.le_refl _, hs'⟩)).le
  have happend : l.append p = ⟨absorb l.runs ⟨p, p⟩⟩ := by
    rw [append, absorb]
    cases hback : l.runs.back? with
    | none => rfl
    | some r =>
      have hmax := max?_greatest h
      rw [max?, hback] at hmax
      have hr : r.last < p := hlast _ hmax.1
      dsimp only
      by_cases htouch : r.last + 1 = p
      · have hle : p ≤ r.last + 1 := htouch.ge
        rw [if_pos htouch, if_pos hle, max_eq_right hr.le]
      · have hlt : ¬p ≤ r.last + 1 := by omega
        rw [if_neg htouch, if_neg hlt]
  have hden := absorb_denotes (r := ⟨p, p⟩) h (Nat.le_refl p) hp hfirst
  rw [Finset.Icc_self, Finset.union_comm, ← Finset.insert_eq] at hden
  rwa [happend]

theorem foldl_append_denotes {list : List Nat} (h : l.Denotes S) (hsorted : list.Pairwise (· < ·))
    (hlt : ∀ p ∈ list, p < chunkSize) (hS : ∀ q ∈ S, ∀ p ∈ list, q < p) :
    (list.foldl append l).Denotes (S ∪ list.toFinset) := by
  induction list generalizing l S with
  | nil => simpa using h
  | cons p rest ih =>
    have hcons := List.pairwise_cons.1 hsorted
    have hstep := append_denotes h (hlt p List.mem_cons_self) fun q hq =>
      hS q hq p List.mem_cons_self
    have hrest := ih hstep hcons.2 (fun q hq => hlt q (List.mem_cons_of_mem p hq))
      fun q hq r hr => by
        rcases Finset.mem_insert.1 hq with rfl | hq
        · exact hcons.1 r hr
        · exact hS q hq r (List.mem_cons_of_mem p hr)
    rw [List.foldl_cons, List.toFinset_cons]
    rwa [Finset.insert_union, ← Finset.union_insert] at hrest

theorem ofSorted_denotes {a : SortedArray} (h : a.Denotes S) : (ofSorted a).Denotes S := by
  have hden := foldl_append_denotes empty_denotes h.1.1 h.1.2 (by simp)
  rw [Finset.empty_union, h.toFinset] at hden
  rw [ofSorted, ← Array.foldl_toList]
  exact hden

end ChunkedSet.RunList
