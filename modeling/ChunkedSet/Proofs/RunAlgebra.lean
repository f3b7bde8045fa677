import ChunkedSet.Proofs.RunConvert

/-!
# Set operations on lists of runs

Each walk pushes runs behind those pushed before. The invariant is that all positions pushed so
far lie before whatever the walk can still push, with a gap between.
-/

namespace ChunkedSet.RunList

variable {l m : RunList} {S T : Finset Nat}

theorem disjoint_covered {r : Run} {rest : List Run} (hapart : Apart (r :: rest)) {p : Nat}
    (hp : p ≤ r.last) : p ∉ covered rest := fun hin => by
  have hlt := hapart.before hin
  omega

/-! The union absorbs the runs of both operands in the order of their starts. -/

theorem first_le_of_mem_absorb {out : Array Run} {r s : Run}
    (hfirst : ∀ t ∈ out.toList, t.first ≤ r.first) (hs : s ∈ (absorb out r).toList) :
    s.first ≤ r.first := by
  rcases ChunkedSet.eq_nil_or_last out with ⟨hl, hback⟩ | ⟨front, t, hl, hback, hpop⟩
  · rw [absorb, hback, Array.toList_push, hl, List.nil_append, List.mem_singleton] at hs
    rw [hs]
  · rw [hl] at hfirst
    rw [absorb, hback] at hs
    dsimp only at hs
    split at hs
    · rw [Array.toList_push, hpop] at hs
      rcases List.mem_append.1 hs with hs | hs
      · exact hfirst s (List.mem_append_left _ hs)
      · rw [List.mem_singleton.1 hs]
        exact hfirst t (by simp)
    · rw [Array.toList_push, hl] at hs
      rcases List.mem_append.1 hs with hs | hs
      · exact hfirst s hs
      · rw [List.mem_singleton.1 hs]

theorem foldl_absorb_denotes {runs : List Run} (hsorted : runs.Pairwise fun r s => r.first ≤ s.first)
    (hruns : ∀ r ∈ runs, r.first ≤ r.last ∧ r.last < chunkSize) {out : Array Run}
    (h : Denotes ⟨out⟩ S) (hfirst : ∀ r ∈ runs, ∀ s ∈ out.toList, s.first ≤ r.first) :
    Denotes ⟨runs.foldl absorb out⟩ (S ∪ covered runs) := by
  induction runs generalizing out S with
  | nil => simpa [covered] using h
  | cons r rest ih =>
    have hcons := List.pairwise_cons.1 hsorted
    have hr := hruns r List.mem_cons_self
    have hstep := absorb_denotes h hr.1 hr.2 (hfirst r List.mem_cons_self)
    have hrest := ih hcons.2 (fun s hs => hruns s (List.mem_cons_of_mem r hs)) hstep
      fun s hs t ht =>
        (first_le_of_mem_absorb (hfirst r List.mem_cons_self) ht).trans (hcons.1 s hs)
    rwa [Finset.union_assoc] at hrest

theorem Apart.firsts {runs : List Run} (hapart : Apart runs)
    (hruns : ∀ r ∈ runs, r.first ≤ r.last) : runs.Pairwise fun r s => r.first ≤ s.first := by
  refine List.Pairwise.imp_of_mem (fun hr _ hlt => ?_) hapart
  have hle := hruns _ hr
  omega

theorem union_denotes (hl : l.Denotes S) (hm : m.Denotes T) : (l.union m).Denotes (S ∪ T) := by
  have hmerged : ∀ r, r ∈ List.merge l.toList m.toList (fun r s => decide (r.first ≤ s.first)) ↔
      r ∈ l.toList ∨ r ∈ m.toList := fun r => List.mem_merge
  have hsorted : (List.merge l.toList m.toList fun r s => decide (r.first ≤ s.first)).Pairwise
      fun r s => decide (r.first ≤ s.first) = true := List.pairwise_merge
    (fun r s t hrs hst => by
      rw [decide_eq_true_eq] at hrs hst ⊢
      exact hrs.trans hst)
    (fun r s => by
      rw [Bool.or_eq_true, decide_eq_true_eq, decide_eq_true_eq]
      exact Nat.le_total _ _)
    l.toList m.toList
    ((hl.1.1.firsts fun r hr => (hl.1.2 r hr).1).imp fun hle => decide_eq_true hle)
    ((hm.1.1.firsts fun r hr => (hm.1.2 r hr).1).imp fun hle => decide_eq_true hle)
  have hfold := foldl_absorb_denotes (hsorted.imp fun hle => of_decide_eq_true hle)
    (fun r hr => by
      rcases (hmerged r).1 hr with hr | hr
      · exact hl.1.2 r hr
      · exact hm.1.2 r hr)
    empty_denotes fun r _ s hs => absurd hs List.not_mem_nil
  have hset : ∅ ∪ covered (List.merge l.toList m.toList
      fun r s => decide (r.first ≤ s.first)) = S ∪ T := by
    rw [Finset.empty_union, ← hl.covered, ← hm.covered]
    ext p
    simp only [Finset.mem_union, mem_covered, hmerged]
    grind
  rwa [hset] at hfold

/-! The walks push what a comparison finds to be no empty range. -/

theorem push_Icc_denotes {out : Array Run} (h : Denotes ⟨out⟩ S) {lo hi : Nat}
    (hhi : hi < chunkSize) (hgap : lo ≤ hi → ∀ q ∈ S, q + 1 < lo) :
    Denotes ⟨if lo ≤ hi then out.push ⟨lo, hi⟩ else out⟩ (S ∪ Finset.Icc lo hi) := by
  split
  · rename_i hle
    exact push_denotes h hle hhi (hgap hle)
  · rename_i hgt
    rw [Finset.Icc_eq_empty hgt, Finset.union_empty]
    exact h

theorem push_Ico_denotes {out : Array Run} (h : Denotes ⟨out⟩ S) (lo : Nat) {hi : Nat}
    (hhi : hi < chunkSize) (hgap : ∀ q ∈ S, q + 1 < lo) :
    Denotes ⟨if lo < hi then out.push ⟨lo, hi - 1⟩ else out⟩ (S ∪ Finset.Ico lo hi) := by
  split
  · rename_i hlt
    have hend : lo ≤ hi - 1 ∧ hi - 1 < chunkSize := by omega
    have hset : Finset.Ico lo hi = Finset.Icc lo (hi - 1) := by
      ext p
      rw [Finset.mem_Ico, Finset.mem_Icc]
      omega
    rw [hset]
    exact push_denotes h hend.1 hend.2 hgap
  · rename_i hge
    rw [Finset.Ico_eq_empty hge, Finset.union_empty]
    exact h

theorem Icc_sdiff_covered {start stop : Nat} {r : Run} {rest : List Run} (hr : stop < r.first)
    (hrest : ∀ p ∈ covered rest, r.first ≤ p) :
    Finset.Icc start stop \ covered (r :: rest) = Finset.Icc start stop := by
  refine Finset.sdiff_eq_self_of_disjoint (Finset.disjoint_left.2 fun p hp hin => ?_)
  have hle := (Finset.mem_Icc.1 hp).2
  rcases Finset.mem_union.1 hin with hin | hin
  · have hge := (Finset.mem_Icc.1 hin).1
    omega
  · have hge := hrest p hin
    omega

/-! The intersection pushes the overlaps of the pairs that may overlap. -/

theorem pushOverlap_denotes {out : Array Run} (h : Denotes ⟨out⟩ S) {x y : Run}
    (hlast : x.last < chunkSize)
    (hgap : ∀ q ∈ S, ∀ p, p ∈ Finset.Icc x.first x.last → p ∈ Finset.Icc y.first y.last →
      q + 1 < p) :
    Denotes ⟨pushOverlap out x y⟩
      (S ∪ (Finset.Icc x.first x.last ∩ Finset.Icc y.first y.last)) := by
  have hset : Finset.Icc x.first x.last ∩ Finset.Icc y.first y.last =
      Finset.Icc (max x.first y.first) (min x.last y.last) := by
    ext p
    simp only [Finset.mem_inter, Finset.mem_Icc]
    omega
  rw [hset]
  refine push_Icc_denotes h (lt_of_le_of_lt (min_le_left _ _) hlast) fun hle q hq => ?_
  have hboth : max x.first y.first ∈
      Finset.Icc x.first x.last ∩ Finset.Icc y.first y.last := by
    rw [hset, Finset.mem_Icc]
    exact ⟨Nat.le_refl _, hle⟩
  rw [Finset.mem_inter] at hboth
  exact hgap q hq _ hboth.1 hboth.2

theorem foldPairs_pushOverlap_denotes {xs ys : List Run} {out : Array Run} (h : Denotes ⟨out⟩ S)
    (hxs : Apart xs) (hlast : ∀ x ∈ xs, x.last < chunkSize) (hys : Apart ys)
    (hgap : ∀ q ∈ S, ∀ p, p ∈ covered xs → p ∈ covered ys → q + 1 < p) :
    Denotes ⟨foldPairs pushOverlap xs ys out⟩ (S ∪ (covered xs ∩ covered ys)) := by
  induction xs, ys, out using foldPairs.induct (f := pushOverlap) generalizing S with
  | case1 ys out => simpa [foldPairs, covered] using h
  | case2 xs out hne => simpa [foldPairs, covered] using h
  | case3 x xs y ys out hlt ih =>
    have hstep := pushOverlap_denotes h (y := y) (hlast x List.mem_cons_self) fun q hq p hx hy =>
      hgap q hq p (Finset.mem_union_left _ hx) (Finset.mem_union_left _ hy)
    have hrest := ih hstep hxs.tail (fun r hr => hlast r (List.mem_cons_of_mem x hr)) hys
      fun q hq p hx hy => by
        rcases Finset.mem_union.1 hq with hq | hq
        · exact hgap q hq p (Finset.mem_union_right _ hx) hy
        · have hle := (Finset.mem_Icc.1 (Finset.mem_inter.1 hq).1).2
          have hbefore := hxs.before hx
          omega
    have hset : S ∪ (Finset.Icc x.first x.last ∩ Finset.Icc y.first y.last) ∪
        (covered xs ∩ covered (y :: ys)) = S ∪ (covered (x :: xs) ∩ covered (y :: ys)) := by
      ext p
      have hout : p ∈ Finset.Icc x.first x.last → p ∉ covered ys := fun hp =>
        disjoint_covered hys ((Finset.mem_Icc.1 hp).2.trans hlt.le)
      simp only [covered, Finset.mem_union, Finset.mem_inter]
      grind
    rw [foldPairs, if_pos hlt, ← hset]
    exact hrest
  | case4 x xs y ys out hge ih =>
    have hstep := pushOverlap_denotes h (y := y) (hlast x List.mem_cons_self) fun q hq p hx hy =>
      hgap q hq p (Finset.mem_union_left _ hx) (Finset.mem_union_left _ hy)
    have hrest := ih hstep hxs hlast hys.tail fun q hq p hx hy => by
      rcases Finset.mem_union.1 hq with hq | hq
      · exact hgap q hq p hx (Finset.mem_union_right _ hy)
      · have hle := (Finset.mem_Icc.1 (Finset.mem_inter.1 hq).2).2
        have hbefore := hys.before hy
        omega
    have hset : S ∪ (Finset.Icc x.first x.last ∩ Finset.Icc y.first y.last) ∪
        (covered (x :: xs) ∩ covered ys) = S ∪ (covered (x :: xs) ∩ covered (y :: ys)) := by
      ext p
      have hout : p ∈ Finset.Icc y.first y.last → p ∉ covered xs := fun hp =>
        disjoint_covered hxs ((Finset.mem_Icc.1 hp).2.trans (Nat.not_lt.1 hge))
      simp only [covered, Finset.mem_union, Finset.mem_inter]
      grind
    rw [foldPairs, if_neg hge, ← hset]
    exact hrest

theorem intersection_denotes (hl : l.Denotes S) (hm : m.Denotes T) :
    (l.intersection m).Denotes (S ∩ T) := by
  have hden := foldPairs_pushOverlap_denotes empty_denotes hl.1.1 (fun r hr => (hl.1.2 r hr).2)
    hm.1.1 fun q hq => absurd hq (Finset.notMem_empty q)
  rwa [Finset.empty_union, hl.covered, hm.covered] at hden

/-! The difference cuts the runs of the right operand out of each run of the left one. -/

theorem cut_denotes {stop : Nat} (hstop : stop < chunkSize) {runs : List Run} (hapart : Apart runs)
    (hruns : ∀ r ∈ runs, r.first ≤ r.last ∧ r.last < chunkSize) {start : Nat}
    (hstart : ∀ r ∈ runs, start ≤ r.last) {out : Array Run} (h : Denotes ⟨out⟩ S)
    (hgap : ∀ q ∈ S, q + 1 < start) :
    Denotes ⟨cut stop runs start out⟩ (S ∪ (Finset.Icc start stop \ covered runs)) := by
  induction runs generalizing start out S with
  | nil =>
    rw [covered, Finset.sdiff_empty]
    exact push_Icc_denotes h hstop fun _ => hgap
  | cons b rest ih =>
    have hb := hruns b List.mem_cons_self
    have hbstart := hstart b List.mem_cons_self
    rw [cut]
    split
    · rename_i hfirst
      have hfront := push_Ico_denotes h start (lt_of_le_of_lt hb.1 hb.2) hgap
      have houtside : ∀ p, p ∈ Finset.Icc start stop \ covered (b :: rest) ↔
          p ∈ Finset.Ico start b.first ∨ p ∈ Finset.Icc (b.last + 1) stop \ covered rest :=
        fun p => by
          have hin := disjoint_covered hapart (p := p)
          simp only [covered, Finset.mem_sdiff, Finset.mem_union, Finset.mem_Icc, Finset.mem_Ico]
          by_cases hp : p ≤ b.last
          · simp only [hin hp, or_false, not_false_eq_true, and_true]
            omega
          · have hafter : b.last + 1 ≤ p := by omega
            have hnot : ¬p < b.first := by omega
            have hpstart : start ≤ p := by omega
            simp [hp, hafter, hnot, hpstart]
      have hset : S ∪ (Finset.Icc start stop \ covered (b :: rest)) =
          S ∪ Finset.Ico start b.first ∪ (Finset.Icc (b.last + 1) stop \ covered rest) := by
        ext p
        rw [Finset.union_assoc, Finset.mem_union, Finset.mem_union, Finset.mem_union, houtside]
      rw [hset]
      dsimp only
      split
      · refine ih hapart.tail (fun r hr => hruns r (List.mem_cons_of_mem b hr)) (fun r hr => ?_)
          hfront fun q hq => ?_
        · have hlt := (List.pairwise_cons.1 hapart).1 r hr
          have hle := (hruns r (List.mem_cons_of_mem b hr)).1
          omega
        · rcases Finset.mem_union.1 hq with hq | hq
          · have hlt := hgap q hq
            omega
          · have hlt := (Finset.mem_Ico.1 hq).2
            omega
      · rename_i hend
        rw [Finset.Icc_eq_empty hend, Finset.empty_sdiff, Finset.union_empty]
        exact hfront
    · rename_i hfirst
      rw [Icc_sdiff_covered (Nat.not_le.1 hfirst) fun p hp => ?_]
      · exact push_Icc_denotes h hstop fun _ => hgap
      · have hlt := hapart.before hp
        omega

theorem dropWhile_last_eq_filter {runs : List Run} (hapart : Apart runs)
    (hruns : ∀ r ∈ runs, r.first ≤ r.last) (p : Nat) :
    runs.dropWhile (·.last < p) = runs.filter fun r => p ≤ r.last := by
  induction runs with
  | nil => rfl
  | cons r rest ih =>
    by_cases hr : r.last < p
    · have hnot : ¬p ≤ r.last := by omega
      rw [List.dropWhile_cons_of_pos (by simpa using hr),
        List.filter_cons_of_neg (by simpa using hr),
        ih hapart.tail fun s hs => hruns s (List.mem_cons_of_mem r hs)]
    · rw [List.dropWhile_cons_of_neg (by simpa using hr)]
      refine (List.filter_eq_self.2 fun s hs => decide_eq_true ?_).symm
      rcases List.mem_cons.1 hs with rfl | hs
      · omega
      · have hlt := (List.pairwise_cons.1 hapart).1 s hs
        have hle := hruns s (List.mem_cons_of_mem r hs)
        omega

theorem differenceFrom_denotes {xs ys : List Run} (hxs : Apart xs)
    (hxruns : ∀ x ∈ xs, x.first ≤ x.last ∧ x.last < chunkSize) (hys : Apart ys)
    (hyruns : ∀ y ∈ ys, y.first ≤ y.last ∧ y.last < chunkSize) {out : Array Run}
    (h : Denotes ⟨out⟩ S) (hgap : ∀ q ∈ S, ∀ x ∈ xs, q + 1 < x.first) :
    Denotes ⟨differenceFrom xs ys out⟩ (S ∪ (covered xs \ covered ys)) := by
  induction xs generalizing ys out S with
  | nil => simpa [differenceFrom, covered] using h
  | cons x xs ih =>
    have hx := hxruns x List.mem_cons_self
    have hdrop := dropWhile_last_eq_filter hys (fun y hy => (hyruns y hy).1) x.first
    have hsub : (ys.filter fun y => x.first ≤ y.last).Sublist ys := List.filter_sublist
    have hkeep : ∀ p, x.first ≤ p →
        (p ∈ covered (ys.filter fun y => x.first ≤ y.last) ↔ p ∈ covered ys) := fun p hp => by
      rw [mem_covered, mem_covered]
      constructor
      · intro hin
        obtain ⟨y, hy, hmem⟩ := hin
        exact ⟨y, hsub.subset hy, hmem⟩
      · intro hin
        obtain ⟨y, hy, hmem⟩ := hin
        exact ⟨y, List.mem_filter.2 ⟨hy, decide_eq_true (hp.trans hmem.2)⟩, hmem⟩
    rw [differenceFrom, hdrop]
    have hcut := cut_denotes hx.2 (hys.sublist hsub) (fun y hy => hyruns y (hsub.subset hy))
      (fun y hy => of_decide_eq_true (List.mem_filter.1 hy).2) h
      fun q hq => hgap q hq x List.mem_cons_self
    have hrest := ih hxs.tail (fun r hr => hxruns r (List.mem_cons_of_mem x hr))
      (hys.sublist hsub) (fun y hy => hyruns y (hsub.subset hy)) hcut fun q hq r hr => by
        rcases Finset.mem_union.1 hq with hq | hq
        · exact hgap q hq r (List.mem_cons_of_mem x hr)
        · have hle := (Finset.mem_Icc.1 (Finset.mem_sdiff.1 hq).1).2
          have hlt := (List.pairwise_cons.1 hxs).1 r hr
          omega
    have hset : S ∪ (covered (x :: xs) \ covered ys) =
        S ∪ (Finset.Icc x.first x.last \ covered (ys.filter fun y => x.first ≤ y.last)) ∪
          (covered xs \ covered (ys.filter fun y => x.first ≤ y.last)) := by
      ext p
      have hbefore := hxs.before (p := p)
      have hp := hkeep p
      simp only [covered, Finset.mem_union, Finset.mem_sdiff, Finset.mem_Icc]
      grind
    rw [hset]
    exact hrest

theorem difference_denotes (hl : l.Denotes S) (hm : m.Denotes T) :
    (l.difference m).Denotes (S \ T) := by
  have hden := differenceFrom_denotes hl.1.1 hl.1.2 hm.1.1 hm.1.2 empty_denotes
    fun q hq => absurd hq (Finset.notMem_empty q)
  rwa [Finset.empty_union, hl.covered, hm.covered] at hden

theorem symmetricDifference_denotes (hl : l.Denotes S) (hm : m.Denotes T) :
    (l.symmetricDifference m).Denotes (symmDiff S T) := by
  rw [symmDiff_eq_sup_sdiff_inf]
  exact difference_denotes (union_denotes hl hm) (intersection_denotes hl hm)

/-! The gaps of a list of runs, which may touch. -/

theorem gapsFrom_denotes {last : Nat} (hlast : last < chunkSize) {runs : List Run}
    (hsorted : runs.Pairwise fun r s => r.last < s.first)
    (hruns : ∀ r ∈ runs, r.first ≤ r.last ∧ r.last < chunkSize) (next : Nat) {out : Array Run}
    (h : Denotes ⟨out⟩ S) (hgap : ∀ q ∈ S, q + 1 < next) :
    Denotes ⟨gapsFrom last runs next out⟩ (S ∪ (Finset.Icc next last \ covered runs)) := by
  induction runs generalizing next out S with
  | nil =>
    rw [covered, Finset.sdiff_empty]
    exact push_Icc_denotes h hlast fun _ => hgap
  | cons r rest ih =>
    have hr := hruns r List.mem_cons_self
    have hcons := List.pairwise_cons.1 hsorted
    have hbehind : ∀ p ∈ covered rest, r.last < p := fun p hp => last_lt_of_covered hsorted hp
    rw [gapsFrom]
    split
    · rename_i hfirst
      rw [Icc_sdiff_covered hfirst fun p hp => hr.1.trans (hbehind p hp).le]
      exact push_Icc_denotes h hlast fun _ => hgap
    · rename_i hfirst
      have hfront := push_Ico_denotes h next (lt_of_le_of_lt hr.1 hr.2) hgap
      have hrest := ih hcons.2 (fun s hs => hruns s (List.mem_cons_of_mem r hs))
        (max next (r.last + 1)) hfront fun q hq => by
          rcases Finset.mem_union.1 hq with hq | hq
          · have hlt := hgap q hq
            omega
          · have hlt := (Finset.mem_Ico.1 hq).2
            omega
      have hset : S ∪ (Finset.Icc next last \ covered (r :: rest)) =
          S ∪ Finset.Ico next r.first ∪
            (Finset.Icc (max next (r.last + 1)) last \ covered rest) := by
        ext p
        have hp := hbehind p
        simp only [covered, Finset.mem_union, Finset.mem_sdiff, Finset.mem_Icc, Finset.mem_Ico]
        grind
      rw [hset]
      exact hrest

theorem gapsWithin_denotes {last : Nat} (hlast : last < chunkSize) {runs : List Run}
    (hsorted : runs.Pairwise fun r s => r.last < s.first)
    (hruns : ∀ r ∈ runs, r.first ≤ r.last ∧ r.last < chunkSize) :
    (gapsWithin runs last).Denotes (Finset.Icc 0 last \ covered runs) := by
  have hden := gapsFrom_denotes hlast hsorted hruns 0 empty_denotes
    fun q hq => absurd hq (Finset.notMem_empty q)
  rwa [Finset.empty_union] at hden

theorem gapsWithin_toList_denotes (h : l.Denotes S) {last : Nat} (hlast : last < chunkSize) :
    (gapsWithin l.toList last).Denotes (Finset.Icc 0 last \ S) := by
  have hden := gapsWithin_denotes hlast h.1.1.sorted h.1.2
  rwa [h.covered] at hden

theorem gapsWithin_singletons_denotes {a : SortedArray} (h : a.Denotes S) {last : Nat}
    (hlast : last < chunkSize) :
    (gapsWithin (singletons a) last).Denotes (Finset.Icc 0 last \ S) := by
  have hcovered : covered (singletons a) = S := by
    ext p
    rw [mem_covered, ← h.mem_toList]
    simp [singletons, Run.mem_def, ← Nat.le_antisymm_iff]
  have hsorted : (singletons a).Pairwise fun r s => r.last < s.first :=
    List.pairwise_map.2 h.1.1
  have hden := gapsWithin_denotes hlast hsorted fun r hr => by
    obtain ⟨v, hv, rfl⟩ := List.mem_map.1 hr
    exact ⟨Nat.le_refl v, h.1.2 v hv⟩
  rwa [hcovered] at hden

end ChunkedSet.RunList
