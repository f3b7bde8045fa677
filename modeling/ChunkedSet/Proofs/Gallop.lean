import ChunkedSet.Proofs.Merge

/-!
# Galloping

A gallop doubles a bound until it has passed its target or the end, and then searches between the
last two bounds. It finds the first element that is not below the target, so that the three ways
of computing an intersection hand the same values to a sink, in the same order.
-/

namespace ChunkedSet.SortedArray

variable {xs ys : Array Nat} {start target bound fuel : Nat}

/-! The doubling loop. -/

def Doubles (xs : Array Nat) (start target bound : Nat) : Prop :=
  start + bound < xs.size ∧ ∃ x ∈ xs[start + bound - 1]?, x < target

structure DoublesFor (xs : Array Nat) (start target bound rounds : Nat) : Prop where
  goesOn : ∀ j < rounds, Doubles xs start target (bound * 2 ^ j)
  ends : ¬Doubles xs start target (bound * 2 ^ rounds)

theorem gallopBound_of_doubles (h : Doubles xs start target bound) :
    gallopBound xs start target (fuel + 1) bound =
      gallopBound xs start target fuel (bound * 2) := by
  obtain ⟨hsize, x, hx, hlt⟩ := h
  rw [gallopBound, if_pos hsize, hx]
  exact if_pos hlt

theorem gallopBound_of_not_doubles (h : ¬Doubles xs start target bound) :
    gallopBound xs start target fuel bound = bound := by
  cases fuel with
  | zero => rfl
  | succ fuel =>
    rw [gallopBound]
    split
    · rename_i hsize
      split
      · rename_i x hx
        exact if_neg fun hlt => h ⟨hsize, x, hx, hlt⟩
      · rfl
    · rfl

/-- A bound that is not zero outgrows the array, so the loop ends before the fuel does. -/
theorem exists_rounds (hpos : 1 ≤ bound) (hfuel : xs.size < fuel + bound) :
    ∃ rounds, DoublesFor xs start target bound rounds ∧
      gallopBound xs start target fuel bound = bound * 2 ^ rounds := by
  induction fuel generalizing bound with
  | zero =>
    have hend : ¬Doubles xs start target (bound * 2 ^ 0) := fun h => by
      have hsize := h.1
      omega
    exact ⟨0, ⟨nofun, hend⟩, (Nat.mul_one bound).symm⟩
  | succ fuel ih =>
    by_cases h : Doubles xs start target bound
    · have hgrow : 1 ≤ bound * 2 ∧ xs.size < fuel + bound * 2 := by omega
      obtain ⟨rounds, hrounds, heq⟩ := ih hgrow.1 hgrow.2
      have hdouble : ∀ j, bound * 2 * 2 ^ j = bound * 2 ^ (j + 1) := fun j => by
        rw [Nat.pow_succ, Nat.mul_assoc, Nat.mul_comm 2]
      refine ⟨rounds + 1, ⟨fun j hj => ?_, ?_⟩, ?_⟩
      · cases j with
        | zero => rwa [Nat.pow_zero, Nat.mul_one]
        | succ j =>
          rw [← hdouble]
          exact hrounds.goesOn j (Nat.lt_of_succ_lt_succ hj)
      · rw [← hdouble]
        exact hrounds.ends
      · rw [gallopBound_of_doubles h, heq, hdouble]
    · refine ⟨0, ⟨nofun, ?_⟩, ?_⟩
      · rwa [Nat.pow_zero, Nat.mul_one]
      · rw [gallopBound_of_not_doubles h, Nat.pow_zero, Nat.mul_one]

/-! The element that a gallop finds. -/

theorem findIdx_eq_of_lt_iff {list : List Nat} {n : Nat} (hn : n ≤ list.length)
    (h : ∀ i x, list[i]? = some x → (x < target ↔ i < n)) :
    list.findIdx (target ≤ ·) = n := by
  rcases Nat.lt_or_eq_of_le hn with hlt | rfl
  · rw [List.findIdx_eq hlt]
    have hfound := h n list[n] (List.getElem?_eq_getElem hlt)
    refine ⟨decide_eq_true (by omega), fun j hj => decide_eq_false ?_⟩
    have hbelow := h j list[j] (List.getElem?_eq_getElem (hj.trans hlt))
    omega
  · rw [List.findIdx_eq_length]
    intro x hx
    obtain ⟨i, hi, rfl⟩ := List.getElem_of_mem hx
    have hbelow := (h i list[i] (List.getElem?_eq_getElem hi)).2 hi
    exact decide_eq_false (Nat.not_le.2 hbelow)

theorem gallop_eq_findIdx (hsorted : xs.toList.Pairwise (· ≤ ·)) (hstart : start ≤ xs.size)
    (target : Nat) :
    gallop xs start target = start + (xs.toList.drop start).findIdx (target ≤ ·) := by
  obtain ⟨hge, hle, hiff⟩ := gallop_spec hsorted hstart target
  have hfound : (xs.toList.drop start).findIdx (target ≤ ·) = gallop xs start target - start := by
    refine findIdx_eq_of_lt_iff ?_ fun i x hx => ?_
    · rw [List.length_drop, Array.length_toList]
      omega
    · rw [List.getElem?_drop, Array.getElem?_toList] at hx
      rw [hiff (start + i) x (Nat.le_add_right start i) hx]
      omega
  omega

/-! The values that reach the sink of an intersection. -/

structure Common (xs ys list : List Nat) : Prop where
  increasing : list.Pairwise (· < ·)
  mem : ∀ p, p ∈ list ↔ p ∈ xs ∧ p ∈ ys

theorem common_filter {xs ys : List Nat} (hxs : xs.Pairwise (· < ·)) :
    Common xs ys (xs.filter (· ∈ ys)) :=
  ⟨hxs.filter _, fun p => by rw [List.mem_filter, decide_eq_true_eq]⟩

theorem Common.unique {xs ys list list' : List Nat} (h : Common xs ys list)
    (h' : Common xs ys list') : list = list' :=
  h.increasing.eq_of_mem_iff h'.increasing fun p => by rw [h.mem, h'.mem]

/-- The sizes decide how an intersection is computed, and nothing that reaches the sink. A gallop
ends by the condition of its loop, at the first element that is not below its target. -/
theorem intersection_same_every_way {xs ys : Array Nat} (hxs : xs.toList.Pairwise (· < ·))
    (hys : ys.toList.Pairwise (· < ·)) :
    (∃ common, Common xs.toList ys.toList common ∧
      (∀ (β : Type) (emit : β → Nat → β) (out : β),
        intersectInto emit xs ys out = common.foldl emit out ∧
        intersectInto emit ys xs out = common.foldl emit out ∧
        ∀ way : Way, way.intersect emit xs ys out = common.foldl emit out) ∧
      intersectInto Array.push xs ys #[] = common.toArray ∧
      intersectInto (fun n _ => n + 1) xs ys 0 = common.length) ∧
    ∀ (zs : Array Nat) (start target : Nat), zs.toList.Pairwise (· ≤ ·) → start ≤ zs.size →
      (∃ rounds, DoublesFor zs start target 1 rounds ∧
        gallopBound zs start target zs.size 1 = 2 ^ rounds) ∧
      gallop zs start target = start + (zs.toList.drop start).findIdx (target ≤ ·) := by
  refine ⟨⟨xs.toList.filter (· ∈ ys.toList), common_filter hxs,
    fun β emit out => ⟨?_, ?_, ?_⟩, ?_, ?_⟩,
    fun zs start target hzs hstart => ⟨?_, gallop_eq_findIdx hzs hstart target⟩⟩
  · exact intersectInto_eq_foldl emit hxs hys out
  · rw [intersectInto_eq_foldl emit hys hxs, filter_mem_comm hxs hys]
  · exact fun way => way.intersect_eq_foldl emit hxs hys out
  · rw [intersectInto_eq_foldl Array.push hxs hys, ← Array.toList_inj, foldl_push]
    rfl
  · rw [intersectInto_eq_foldl _ hxs hys, foldl_count, Nat.zero_add]
  · obtain ⟨rounds, hrounds, hbound⟩ :=
      @exists_rounds zs start target 1 zs.size Nat.le.refl (Nat.lt_succ_self zs.size)
    exact ⟨rounds, hrounds, by rw [hbound, Nat.one_mul]⟩

theorem intersection_same_every_way_galloping :
    (#[3, 200, 400].toList.Pairwise (· < ·) ∧ (Array.range 300).toList.Pairwise (· < ·) ∧
      #[1, 1, 4, 4, 9].toList.Pairwise (· ≤ ·)) ∧
    Way.ofSizes #[3, 200, 400].size (Array.range 300).size = .gallopingRight ∧
    intersectInto Array.push #[3, 200, 400] (Array.range 300) #[] = #[3, 200] ∧
    intersectInto (fun n _ => n + 1) #[3, 200, 400] (Array.range 300) 0 = 2 ∧
    (∀ way : Way, way.intersect Array.push #[3, 200, 400] (Array.range 300) #[] = #[3, 200]) ∧
    gallop #[1, 1, 4, 4, 9] 1 3 = 2 := by
  have hfew : #[3, 200, 400].toList.Pairwise (· < ·) := by decide
  have hmany : (Array.range 300).toList.Pairwise (· < ·) := by
    rw [Array.toList_range]
    exact List.pairwise_lt_range
  have hrepeated : #[1, 1, 4, 4, 9].toList.Pairwise (· ≤ ·) := by decide
  obtain ⟨⟨common, hcommon, hall, hpush, hcount⟩, hgallop⟩ :=
    intersection_same_every_way hfew hmany
  have heq : common = [3, 200] := by
    refine hcommon.unique ⟨by decide, fun p => ?_⟩
    simp only [Array.toList_range, List.mem_range, List.mem_cons, List.not_mem_nil, or_false]
    omega
  subst heq
  have hway : Way.ofSizes #[3, 200, 400].size (Array.range 300).size = .gallopingRight := by
    rw [Array.size_range]
    decide
  exact ⟨⟨hfew, hmany, hrepeated⟩, hway, hpush, hcount,
    fun way => (hall (Array Nat) Array.push #[]).2.2 way, (hgallop _ 1 3 hrepeated (by decide)).2⟩

end ChunkedSet.SortedArray
