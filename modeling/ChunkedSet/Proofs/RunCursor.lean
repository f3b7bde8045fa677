import ChunkedSet.Cursor.Runs
import ChunkedSet.Proofs.RunConvert
import ChunkedSet.Proofs.SortedQueue

/-!
# Cursors over runs

What a cursor over runs has left, and what each step leaves of it. As long as something is left,
the runs at the two indices hold the two ends of it.
-/

namespace ChunkedSet

namespace RunList

variable {l : RunList} {i j p : Nat} {r s : Run}

theorem Valid.run_spec (h : l.Valid) (hr : l.runs[i]? = some r) :
    r.first ≤ r.last ∧ r.last < chunkSize :=
  h.2 r (Array.mem_toList_iff.2 (Array.mem_of_getElem? hr))

theorem Valid.apart (h : l.Valid) (hr : l.runs[i]? = some r) (hs : l.runs[j]? = some s)
    (hij : i < j) : r.last + 1 < s.first := by
  rw [← Array.getElem?_toList] at hr hs
  obtain ⟨hi, rfl⟩ := List.getElem?_eq_some_iff.1 hr
  obtain ⟨hj, rfl⟩ := List.getElem?_eq_some_iff.1 hs
  exact List.pairwise_iff_getElem.1 h.1 i j hi hj hij

theorem Valid.mono (h : l.Valid) (hr : l.runs[i]? = some r) (hs : l.runs[j]? = some s)
    (hij : i ≤ j) : r.first ≤ s.first ∧ r.last ≤ s.last := by
  rcases hij.eq_or_lt with rfl | hlt
  · obtain rfl := Option.some.inj (hr.symm.trans hs)
    exact ⟨Nat.le_refl _, Nat.le_refl _⟩
  · have hapart := h.apart hr hs hlt
    have hle := (h.run_spec hr).1
    have hle' := (h.run_spec hs).1
    omega

theorem Valid.index_le (h : l.Valid) (hr : l.runs[i]? = some r) (hs : l.runs[j]? = some s)
    (hp : p ∈ s) (hle : r.first ≤ p) : i ≤ j := by
  by_contra hlt
  have hapart := h.apart hs hr (Nat.not_le.1 hlt)
  have hlast : p ≤ s.last := hp.2
  omega

theorem length_listed (runs : List Run) : (listed runs).length = (runs.map Run.size).sum := by
  rw [listed, List.length_flatMap]
  simp only [List.length_range']

theorem mem_between (l : RunList) : s ∈ (l.runs.extract (i + 1) j).toList ↔
    ∃ k, i < k ∧ k < j ∧ l.runs[k]? = some s := by
  simp only [Array.mem_toList_iff, Array.mem_iff_getElem?, Array.getElem?_extract]
  constructor
  · rintro ⟨k, hk⟩
    split_ifs at hk with hlt
    exact ⟨i + 1 + k, by omega, by omega, hk⟩
  · rintro ⟨k, hik, hkj, hs⟩
    have hk := (Array.getElem?_eq_some_iff.1 hs).1
    refine ⟨k - (i + 1), ?_⟩
    rw [if_pos (by omega), Nat.add_sub_cancel' hik, hs]

end RunList

namespace RunCursor

/-- The cursor has the positions of `xs` left, those of its runs between its two bounds. -/
structure Holds (c : RunCursor) (xs : List Nat) : Prop where
  valid : RunList.Valid ⟨c.runs⟩
  stop_le : c.stop ≤ chunkSize
  lists : Lists xs fun p =>
    c.value ≤ p ∧ p < c.stop ∧ ∃ (i : Nat) (r : Run), c.runs[i]? = some r ∧ p ∈ r
  front_run : c.value < c.stop → ∃ r : Run, c.runs[c.front]? = some r ∧ c.value ∈ r
  back_run : c.value < c.stop → ∃ r : Run, c.runs[c.back]? = some r ∧ c.stop - 1 ∈ r

variable {c : RunCursor} {xs : List Nat} {i j p : Nat} {r s : Run}

theorem Holds.sorted (h : c.Holds xs) : xs.Pairwise (· < ·) := h.lists.1

theorem Holds.lt (h : c.Holds xs) (hp : p ∈ xs) : p < chunkSize :=
  ((h.lists.2 p).1 hp).2.1.trans_le h.stop_le

theorem Holds.eq_nil_iff (h : c.Holds xs) : xs = [] ↔ c.stop ≤ c.value := by
  constructor
  · rintro rfl
    by_contra hlt
    obtain ⟨r, hr, hmem⟩ := h.front_run (Nat.not_le.1 hlt)
    exact List.not_mem_nil ((h.lists.2 c.value).2 ⟨Nat.le_refl _, Nat.not_le.1 hlt, _, r, hr, hmem⟩)
  · intro hle
    rw [List.eq_nil_iff_forall_not_mem]
    intro p hp
    have hp := (h.lists.2 p).1 hp
    omega

theorem Holds.head?_eq (h : c.Holds xs) (hlt : c.value < c.stop) : xs.head? = some c.value := by
  obtain ⟨r, hr, hmem⟩ := h.front_run hlt
  apply h.lists.head?.unique
  show Least _ (some c.value)
  exact ⟨⟨Nat.le_refl _, hlt, _, r, hr, hmem⟩, fun q hq => hq.1⟩

theorem Holds.getLast?_eq (h : c.Holds xs) (hlt : c.value < c.stop) :
    xs.getLast? = some (c.stop - 1) := by
  obtain ⟨r, hr, hmem⟩ := h.back_run hlt
  apply h.lists.getLast?.unique
  show Greatest _ (some (c.stop - 1))
  exact ⟨⟨by omega, by omega, _, r, hr, hmem⟩, fun q hq => by omega⟩

theorem Holds.le_frontLast (h : c.Holds xs) (hlt : c.value < c.stop) : c.value ≤ c.frontLast := by
  obtain ⟨r, hr, hmem⟩ := h.front_run hlt
  rw [frontLast, hr]
  exact hmem.2

theorem Holds.peek? (h : c.Holds xs) : c.peek? = xs.head? := by
  simp only [RunCursor.peek?, isExhausted, decide_eq_true_eq]
  split_ifs with hcase
  · rw [h.eq_nil_iff.2 hcase, List.head?_nil]
  · rw [h.head?_eq (Nat.not_le.1 hcase)]

theorem Holds.peekBack? (h : c.Holds xs) : c.peekBack? = xs.getLast? := by
  simp only [RunCursor.peekBack?, isExhausted, decide_eq_true_eq]
  split_ifs with hcase
  · rw [h.eq_nil_iff.2 hcase, List.getLast?_nil]
  · rw [h.getLast?_eq (Nat.not_le.1 hcase)]

/-! The front moves on. -/

/-- The front may move up to any position, as long as no position of the runs lies between it
and where the cursor has it from then on. -/
theorem Holds.raise (h : c.Holds xs) {front value : Nat} (hp : c.value ≤ p) (hvalue : p ≤ value)
    (hskip : ∀ (i : Nat) (r : Run) (q : Nat), c.runs[i]? = some r → q ∈ r → p ≤ q → q < c.stop →
      value ≤ q)
    (hfront : value < c.stop → ∃ r : Run, c.runs[front]? = some r ∧ value ∈ r) :
    Holds { c with front, value } (xs.filter (p ≤ ·)) := by
  refine ⟨h.valid, h.stop_le, (h.lists.filter _).congr fun q => ?_, hfront, fun hlt => ?_⟩
  · simp only [decide_eq_true_eq]
    constructor
    · rintro ⟨⟨-, hstop, i, r, hr, hq⟩, hle⟩
      exact ⟨hskip i r q hr hq hle hstop, hstop, i, r, hr, hq⟩
    · rintro ⟨hle, hq⟩
      exact ⟨⟨by omega, hq⟩, by omega⟩
  · exact h.back_run (by simp only at hlt; omega)

theorem Holds.skipTo (h : c.Holds xs) (hlt : c.value < c.stop) (hp : c.value < p)
    (hlast : p ≤ c.frontLast + 1) : (c.skipTo p).Holds (xs.filter (p ≤ ·)) := by
  obtain ⟨r, hr, hmem⟩ := h.front_run hlt
  have hbound := h.valid.run_spec hr
  have hstop := h.stop_le
  have hfrontLast : c.frontLast = r.last := by simp [frontLast, hr]
  rw [hfrontLast] at hlast
  rw [RunCursor.skipTo, hfrontLast]
  split_ifs with hcase
  · -- the run ends before `p`, and the positions from `p` on lie in the runs behind it
    have hbehind : ∀ (i : Nat) (s : Run) (q : Nat), c.runs[i]? = some s → q ∈ s → p ≤ q →
        c.front + 1 ≤ i := by
      intro i s q hs hq hle
      have hi := h.valid.index_le hr hs hq (hmem.1.trans (hp.le.trans hle))
      rcases hi.eq_or_lt with rfl | hi
      · obtain rfl := Option.some.inj (hr.symm.trans hs)
        have := hq.2
        omega
      · exact hi
    cases hnext : c.runs[c.front + 1]? with
    | none =>
      apply h.raise hp.le
      · simp only [Option.elim_none, beyond, chunkSize] at *
        omega
      · intro i s q hs hq hle
        have hi := hbehind i s q hs hq hle
        rw [Array.getElem?_eq_none_iff] at hnext
        have := (Array.getElem?_eq_some_iff.1 hs).1
        omega
      · simp only [Option.elim_none, beyond, chunkSize] at *
        omega
    | some t =>
      have hgap := h.valid.apart hr hnext (Nat.lt_succ_self _)
      have ht := h.valid.run_spec hnext
      apply h.raise hp.le
      · simp only [Option.elim_some]
        omega
      · intro i s q hs hq hle _
        have hi := hbehind i s q hs hq hle
        exact (h.valid.mono hnext hs hi).1.trans hq.1
      · intro _
        exact ⟨t, hnext, Nat.le_refl _, ht.1⟩
  · apply h.raise hp.le (Nat.le_refl p)
    · intro i s q _ _ hle _
      exact hle
    · intro _
      exact ⟨r, hr, hmem.1.trans hp.le, Nat.not_lt.1 hcase⟩

theorem Holds.next (h : c.Holds xs) : c.next.1 = xs.head? ∧ c.next.2.Holds xs.tail := by
  simp only [RunCursor.next, isExhausted, decide_eq_true_eq]
  split_ifs with hcase
  · obtain rfl := h.eq_nil_iff.2 hcase
    exact ⟨rfl, h⟩
  · have hlt := Nat.not_le.1 hcase
    have hhead := h.head?_eq hlt
    have hlast : c.value + 1 ≤ c.frontLast + 1 := Nat.succ_le_succ (h.le_frontLast hlt)
    have htail : xs.filter (c.value + 1 ≤ ·) = xs.tail := by
      refine (h.lists.filter _).unique (h.lists.tail.congr fun q => ?_)
      simp only [hhead, decide_eq_true_eq, Option.mem_def, Option.some_inj, forall_eq',
        Nat.succ_le_iff]
    rw [← htail]
    exact ⟨hhead.symm, h.skipTo hlt (Nat.lt_succ_self _) hlast⟩

theorem Holds.advanceTo (h : c.Holds xs) (hp : p < chunkSize) :
    (c.advanceTo p).Holds (xs.filter (p ≤ ·)) := by
  have hstop := h.stop_le
  rw [RunCursor.advanceTo]
  split_ifs with hcase
  · rw [List.filter_eq_self.2]
    · exact h
    · intro q hq
      have := ((h.lists.2 q).1 hq).1
      exact decide_eq_true (hcase.trans this)
  · have hsorted := h.valid.pairwise
    have hplace : ∀ (i : Nat) (s : Run) (q : Nat), c.runs[i]? = some s → q ∈ s → p ≤ q → q < c.stop →
        partitionPointIn (·.last < p) c.runs c.front c.runs.size ≤ i := by
      intro i s q hs hq hle hstop
      obtain ⟨r, hr, hmem⟩ := h.front_run (by omega)
      have hi := h.valid.index_le hr hs hq (hmem.1.trans ((Nat.not_le.1 hcase).le.trans hle))
      have hsplit := partitionPointIn_splits (p := (·.last < p)) hsorted
        (by simp only [decide_eq_true_eq]; omega) (Nat.le_refl _) hs hi
        (Array.getElem?_eq_some_iff.1 hs).1
      have := hq.2
      simp only [decide_eq_true_eq] at hsplit
      omega
    dsimp only
    cases hr : c.runs[partitionPointIn (·.last < p) c.runs c.front c.runs.size]? with
    | none =>
      apply h.raise (Nat.not_le.1 hcase).le
      · simp only [beyond, chunkSize] at *
        omega
      · intro i s q hs hq hle hlt
        have hi := hplace i s q hs hq hle hlt
        rw [Array.getElem?_eq_none_iff] at hr
        have := (Array.getElem?_eq_some_iff.1 hs).1
        omega
      · simp only [beyond, chunkSize] at *
        omega
    | some r =>
      have hbound := h.valid.run_spec hr
      apply h.raise (Nat.not_le.1 hcase).le (Nat.le_max_left _ _)
      · intro i s q hs hq hle hlt
        have hi := hplace i s q hs hq hle hlt
        exact max_le hle ((h.valid.mono hr hs hi).1.trans hq.1)
      · intro hlt
        refine ⟨r, hr, Nat.le_max_right _ _, max_le ?_ hbound.1⟩
        have hlo := partitionPointIn_ge (·.last < p) c.runs c.front c.runs.size
        have hsplit := partitionPointIn_splits (p := (·.last < p)) hsorted
          (by simp only [decide_eq_true_eq]; omega) (Nat.le_refl _) hr hlo
          (Array.getElem?_eq_some_iff.1 hr).1
        simpa using hsplit

/-! The back moves on. -/

theorem Holds.lower (h : c.Holds xs) {back stop : Nat} (hp : p ≤ c.stop) (hstop : stop ≤ p)
    (hskip : ∀ (i : Nat) (r : Run) (q : Nat), c.runs[i]? = some r → q ∈ r → q < p → c.value ≤ q →
      q < stop)
    (hback : c.value < stop → ∃ r : Run, c.runs[back]? = some r ∧ stop - 1 ∈ r) :
    Holds { c with back, stop } (xs.filter (· < p)) := by
  refine ⟨h.valid, (hstop.trans hp).trans h.stop_le, (h.lists.filter _).congr fun q => ?_,
    fun hlt => ?_, hback⟩
  · simp only [decide_eq_true_eq]
    constructor
    · rintro ⟨⟨hle, -, i, r, hr, hq⟩, hlt⟩
      exact ⟨hle, hskip i r q hr hq hlt hle, i, r, hr, hq⟩
    · rintro ⟨hle, hlt, hq⟩
      exact ⟨⟨hle, by omega, hq⟩, by omega⟩
  · exact h.front_run (by simp only at hlt; omega)

theorem Holds.le_back (h : c.Holds xs) (hs : c.runs[i]? = some s) (hq : p ∈ s)
    (hle : c.value ≤ p) (hlt : p < c.stop) : i ≤ c.back := by
  obtain ⟨r, hr, hmem⟩ := h.back_run (by omega)
  exact h.valid.index_le hs hr hmem (hq.1.trans (Nat.le_sub_one_of_lt hlt))

theorem Holds.nextBack (h : c.Holds xs) :
    c.nextBack.1 = xs.getLast? ∧ c.nextBack.2.Holds xs.dropLast := by
  simp only [RunCursor.nextBack, isExhausted, decide_eq_true_eq]
  split_ifs with hcase hfirst
  · obtain rfl := h.eq_nil_iff.2 hcase
    exact ⟨rfl, h⟩
  all_goals
    have hlt := Nat.not_le.1 hcase
    have hlast := h.getLast?_eq hlt
    obtain ⟨r, hr, hmem⟩ := h.back_run hlt
    have hinit : xs.filter (· < c.stop - 1) = xs.dropLast := by
      refine (h.lists.filter _).unique (h.lists.dropLast.congr fun q => ?_)
      simp [hlast]
    rw [← hinit, hlast]
    simp only [backFirst, hr, Option.elim_some] at hfirst
  · -- the run at the back is used up, and what is left lies in the runs before it
    have hbefore : ∀ (i : Nat) (s : Run) (q : Nat), c.runs[i]? = some s → q ∈ s →
        q < c.stop - 1 → c.value ≤ q → i < c.back := by
      intro i s q hs hq hqlt hle
      rcases (h.le_back hs hq hle (by omega)).eq_or_lt with rfl | hi
      · obtain rfl := Option.some.inj (hr.symm.trans hs)
        have := hq.1
        omega
      · exact hi
    split
    · rename_i hzero
      refine ⟨rfl, h.lower (Nat.sub_le _ _) (Nat.zero_le _) (fun i s q hs hq hqlt hle => ?_) ?_⟩
      · have := hbefore i s q hs hq hqlt hle
        omega
      · intro hpos
        exact absurd hpos (Nat.not_lt_zero _)
    · rename_i lower hlower
      have hsize := (Array.getElem?_eq_some_iff.1 hr).1
      have ht : c.runs[lower]? = some c.runs[lower] := Array.getElem?_eq_getElem (by omega)
      have hgap := h.valid.apart ht hr (by omega)
      have hbound := h.valid.run_spec ht
      rw [ht, Option.elim_some]
      refine ⟨rfl, h.lower (Nat.sub_le _ _) (by omega) (fun i s q hs hq hqlt hle => ?_) ?_⟩
      · have hi := hbefore i s q hs hq hqlt hle
        exact Nat.lt_succ_of_le (hq.2.trans (h.valid.mono hs ht (by omega)).2)
      · intro _
        exact ⟨_, ht, by omega, by omega⟩
  · refine ⟨rfl, h.lower (Nat.sub_le _ _) (Nat.le_refl _) (fun i s q _ _ hqlt _ => hqlt) fun _ => ?_⟩
    exact ⟨r, hr, Nat.le_sub_one_of_lt (hmem.1.lt_of_ne' hfirst), (Nat.sub_le _ 1).trans hmem.2⟩

theorem Holds.advanceBackTo (h : c.Holds xs) (p : Nat) :
    (c.advanceBackTo p).Holds (xs.filter (· ≤ p)) := by
  rw [RunCursor.advanceBackTo]
  split_ifs with hcase
  · rw [List.filter_eq_self.2]
    · exact h
    · intro q hq
      have := ((h.lists.2 q).1 hq).2.1
      exact decide_eq_true (by omega)
  · have hsorted := h.valid.pairwise
    have hsplit : c.value < c.stop → ∀ (i : Nat) (s : Run), c.runs[i]? = some s → i ≤ c.back →
        (s.first ≤ p ↔ i < partitionPointIn (·.first ≤ p) c.runs 0 (c.back + 1)) := by
      intro hlt i s hs hi
      obtain ⟨r, hr, -⟩ := h.back_run hlt
      have hsplit := partitionPointIn_splits (p := (·.first ≤ p)) hsorted
        (by simp only [decide_eq_true_eq]; omega) (Array.getElem?_eq_some_iff.1 hr).1 hs
        (Nat.zero_le i) (Nat.lt_succ_of_le hi)
      simpa only [decide_eq_true_eq] using hsplit
    have hplace : ∀ (i : Nat) (s : Run) (q : Nat), c.runs[i]? = some s → q ∈ s → q < p + 1 →
        c.value ≤ q → i < partitionPointIn (·.first ≤ p) c.runs 0 (c.back + 1) := by
      intro i s q hs hq hqlt hle
      have hi := h.le_back hs hq hle (by omega)
      exact (hsplit (by omega) i s hs hi).1 (hq.1.trans (Nat.le_of_lt_succ hqlt))
    have hfilter : xs.filter (· ≤ p) = xs.filter (· < p + 1) := by simp only [Nat.lt_succ_iff]
    rw [hfilter]
    split
    · rename_i hzero
      apply h.lower (Nat.not_le.1 hcase).le (Nat.zero_le _)
      · intro i s q hs hq hqlt hle
        have := hplace i s q hs hq hqlt hle
        omega
      · intro hpos
        exact absurd hpos (Nat.not_lt_zero _)
    · rename_i place hfound
      have hrun : c.value < c.stop → ∃ r : Run, c.runs[place]? = some r ∧ r.first ≤ p := by
        intro hlt
        obtain ⟨r, hr, -⟩ := h.back_run hlt
        have hsize := (Array.getElem?_eq_some_iff.1 hr).1
        have hle := partitionPointIn_le (·.first ≤ p) c.runs (Nat.zero_le (c.back + 1))
        have ht : c.runs[place]? = some c.runs[place] := Array.getElem?_eq_getElem (by omega)
        exact ⟨_, ht, (hsplit hlt place _ ht (by omega)).2 (by omega)⟩
      apply h.lower (Nat.not_le.1 hcase).le (by omega)
      · intro i s q hs hq hqlt hle
        obtain ⟨t, ht, -⟩ := hrun (by omega)
        have hi := hplace i s q hs hq hqlt hle
        have hlast : q ≤ t.last := hq.2.trans (h.valid.mono hs ht (by omega)).2
        simp only [ht, Option.elim_some]
        omega
      · intro hlt
        obtain ⟨t, ht, hfirst⟩ := hrun (by omega)
        have hbound := h.valid.run_spec ht
        refine ⟨t, ht, ?_⟩
        simp only [ht, Option.elim_some, Nat.add_sub_cancel, Run.mem_def]
        omega

/-! The number of positions left. -/

theorem Holds.listed_eq (h : c.Holds xs) (hlt : c.value < c.stop)
    (hr : c.runs[c.front]? = some r) (hs : c.runs[c.back]? = some s) (hends : c.front ≠ c.back) :
    xs = RunList.listed (⟨c.value, r.last⟩ ::
      ((c.runs.extract (c.front + 1) c.back).toList ++ [⟨s.first, c.stop - 1⟩])) := by
  obtain ⟨r', hr', hfront⟩ := h.front_run hlt
  obtain ⟨s', hs', hback⟩ := h.back_run hlt
  obtain rfl := Option.some.inj (hr.symm.trans hr')
  obtain rfl := Option.some.inj (hs.symm.trans hs')
  have hle : c.front ≤ c.back := h.valid.index_le hr hs hback (hfront.1.trans (Nat.le_sub_one_of_lt hlt))
  have hgap := h.valid.apart hr hs (by omega)
  have hruns : ∀ t ∈ (⟨c.value, r.last⟩ : Run) ::
      ((c.runs.extract (c.front + 1) c.back).toList ++ [⟨s.first, c.stop - 1⟩]), t.first ≤ t.last := by
    simp only [List.mem_cons, List.mem_append, RunList.mem_between ⟨c.runs⟩, List.not_mem_nil,
      or_false]
    rintro t (rfl | ⟨k, -, -, ht⟩ | rfl)
    · exact hfront.2
    · exact (h.valid.run_spec ht).1
    · exact hback.1
  have hmiddle : RunList.Apart (c.runs.extract (c.front + 1) c.back).toList := by
    refine List.Pairwise.sublist ?_ h.valid.1
    rw [Array.toList_extract]
    exact (List.take_sublist _ _).trans (List.drop_sublist _ _)
  have hapart : RunList.Apart (⟨c.value, r.last⟩ ::
      ((c.runs.extract (c.front + 1) c.back).toList ++ [⟨s.first, c.stop - 1⟩])) := by
    simp only [RunList.Apart, List.pairwise_cons, List.pairwise_append, List.mem_append,
      RunList.mem_between ⟨c.runs⟩, List.mem_singleton]
    refine ⟨?_, hmiddle, by simp, ?_⟩
    · rintro t (⟨k, hk, -, ht⟩ | rfl)
      · exact h.valid.apart hr ht hk
      · exact hgap
    · rintro t ⟨k, -, hk, ht⟩ u rfl
      exact (h.valid.apart ht hs hk : t.last + 1 < s.first)
  refine h.lists.unique ⟨RunList.pairwise_listed hapart hruns, fun p => ?_⟩
  simp only [RunList.mem_listed hruns, RunList.mem_covered, List.mem_cons, List.mem_append,
    RunList.mem_between ⟨c.runs⟩, List.not_mem_nil, or_false]
  constructor
  · rintro ⟨t, hmem, hp⟩
    rw [Run.mem_def] at hp hfront hback
    rcases hmem with rfl | ⟨k, hik, hkj, ht⟩ | rfl
    · simp only at hp
      exact ⟨hp.1, by omega, _, r, hr, by omega, hp.2⟩
    · have hbefore := h.valid.apart hr ht hik
      have hbehind := h.valid.apart ht hs hkj
      exact ⟨by omega, by omega, k, t, ht, hp⟩
    · simp only at hp
      exact ⟨by omega, by omega, _, s, hs, hp.1, by omega⟩
  · rintro ⟨hvalue, hstop, k, t, ht, hp⟩
    have hik := h.valid.index_le hr ht hp (hfront.1.trans hvalue)
    have hkj := h.le_back ht hp hvalue hstop
    rcases hik.eq_or_lt with rfl | hik
    · obtain rfl := Option.some.inj (hr.symm.trans ht)
      exact ⟨_, Or.inl rfl, hvalue, hp.2⟩
    rcases hkj.eq_or_lt with rfl | hkj
    · obtain rfl := Option.some.inj (hs.symm.trans ht)
      exact ⟨_, Or.inr (Or.inr rfl), hp.1, Nat.le_sub_one_of_lt hstop⟩
    · exact ⟨t, Or.inr (Or.inl ⟨k, hik, hkj, ht⟩), hp⟩

theorem Holds.size (h : c.Holds xs) : c.size = xs.length := by
  simp only [RunCursor.size, isExhausted, decide_eq_true_eq]
  split_ifs with hcase hends
  · rw [h.eq_nil_iff.2 hcase, List.length_nil]
  · have hlt := Nat.not_le.1 hcase
    obtain ⟨r, hr, hfront⟩ := h.front_run hlt
    obtain ⟨s, hs, hback⟩ := h.back_run hlt
    rw [hends] at hr
    obtain rfl := Option.some.inj (hr.symm.trans hs)
    have hall : xs = List.range' c.value (c.stop - c.value) := by
      refine h.lists.unique ⟨List.pairwise_lt_range', fun p => ?_⟩
      rw [List.mem_range'_1]
      constructor
      · intro hp
        have := hback.2
        exact ⟨hp.1, by omega, _, r, hr, hfront.1.trans hp.1, by omega⟩
      · intro hp
        omega
    rw [hall, List.length_range']
  · have hlt := Nat.not_le.1 hcase
    obtain ⟨r, hr, hfront⟩ := h.front_run hlt
    obtain ⟨s, hs, hback⟩ := h.back_run hlt
    have := hfront.2
    have := hback.1
    rw [h.listed_eq hlt hr hs hends, RunList.length_listed, ← Array.foldl_toList, Words.foldl_add_eq_sum]
    simp [Run.size, frontLast, backFirst, hr, hs]
    omega

theorem holds_ofList {l : RunList} (h : l.Valid) : (ofList l).Holds l.toSorted.toList := by
  have hruns : ∀ r ∈ l.toList, r.first ≤ r.last := fun r hr => (h.2 r hr).1
  have hsorted : l.toSorted.toList.Pairwise (· < ·) := by
    rw [RunList.toList_toSorted]
    exact RunList.pairwise_listed h.1 hruns
  have hmem : ∀ p, p ∈ l.toSorted.toList ↔ ∃ (i : Nat) (r : Run), l.runs[i]? = some r ∧ p ∈ r := by
    intro p
    rw [RunList.toList_toSorted, RunList.mem_listed hruns, RunList.mem_covered]
    simp only [RunList.toList, Array.mem_toList_iff, Array.mem_iff_getElem?]
    constructor
    · rintro ⟨r, ⟨i, hr⟩, hp⟩
      exact ⟨i, r, hr, hp⟩
    · rintro ⟨i, r, hr, hp⟩
      exact ⟨r, ⟨i, hr⟩, hp⟩
  by_cases hempty : l.runs = #[]
  · obtain ⟨runs⟩ := l
    subst hempty
    refine ⟨h, Nat.zero_le _, ⟨hsorted, fun p => ?_⟩, ?_, ?_⟩
    · rw [hmem]
      simp [ofList]
    all_goals
      intro hlt
      exact absurd hlt (Nat.lt_irrefl 0)
  · have hpos : 0 < l.runs.size := Array.size_pos_iff.2 hempty
    have hfirst : l.runs[0]? = some l.runs[0] := Array.getElem?_eq_getElem hpos
    have hlast : l.runs[l.runs.size - 1]? = some l.runs[l.runs.size - 1] :=
      Array.getElem?_eq_getElem (Nat.sub_one_lt_of_lt hpos)
    have hfirstSpec := h.run_spec hfirst
    have hlastSpec := h.run_spec hlast
    have hvalue : (ofList l).value = l.runs[0].first := by simp [ofList, hfirst]
    have hstop : (ofList l).stop = l.runs[l.runs.size - 1].last + 1 := by
      simp only [ofList, Array.back?_eq_getElem?, hlast, Option.elim_some]
    refine ⟨h, by omega, ⟨hsorted, fun p => ?_⟩, fun _ => ?_, fun _ => ?_⟩
    · rw [hmem, hvalue, hstop]
      constructor
      · rintro ⟨i, r, hr, hp⟩
        have hi := (Array.getElem?_eq_some_iff.1 hr).1
        have hfront := (h.mono hfirst hr (Nat.zero_le i)).1
        have hback := (h.mono hr hlast (Nat.le_sub_one_of_lt hi)).2
        exact ⟨hfront.trans hp.1, Nat.lt_succ_of_le (hp.2.trans hback), i, r, hr, hp⟩
      · exact fun hp => hp.2.2
    · rw [hvalue]
      exact ⟨_, hfirst, Nat.le_refl _, hfirstSpec.1⟩
    · rw [hstop]
      exact ⟨_, hlast, hlastSpec.1, Nat.le_refl _⟩

end RunCursor

end ChunkedSet
