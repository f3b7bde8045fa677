import ChunkedSet.Proofs.SortedArray

/-!
# Merges of sorted lists

What a merge emits is a sorted list, whatever the sink, and a galloping intersection emits the
same list as a merge. The sizes of the operands decide between the two.
-/

namespace ChunkedSet.SortedArray

def kept (keep : Keep) (xs ys : List Nat) : List Nat :=
  match xs, ys with
  | [], ys => if keep.right then ys else []
  | xs, [] => if keep.left then xs else []
  | x :: xs, y :: ys =>
    if x < y then (if keep.left then [x] else []) ++ kept keep xs (y :: ys)
    else if y < x then (if keep.right then [y] else []) ++ kept keep (x :: xs) ys
    else (if keep.both then [x] else []) ++ kept keep xs ys
termination_by xs.length + ys.length

variable {β : Type}

theorem emitIf_eq_foldl (wanted : Bool) (emit : β → Nat → β) (out : β) (x : Nat) :
    emitIf wanted emit out x = (if wanted then [x] else []).foldl emit out := by
  cases wanted <;> rfl

theorem emitAll_eq_foldl (wanted : Bool) (emit : β → Nat → β) (out : β) (xs : List Nat) :
    emitAll wanted emit out xs = (if wanted then xs else []).foldl emit out := by
  cases wanted <;> rfl

theorem merge_eq_foldl (keep : Keep) (emit : β → Nat → β) (xs ys : List Nat) (out : β) :
    merge keep emit xs ys out = (kept keep xs ys).foldl emit out := by
  fun_induction merge keep emit xs ys out with
  | case1 out ys => rw [kept, emitAll_eq_foldl]
  | case2 out xs hxs => cases xs <;> rw [emitAll_eq_foldl] <;> simp_all [kept]
  | case3 out x xs y ys hlt ih =>
    rw [ih, kept, if_pos hlt, List.foldl_append, emitIf_eq_foldl]
  | case4 out x xs y ys hlt hgt ih =>
    rw [ih, kept, if_neg hlt, if_pos hgt, List.foldl_append, emitIf_eq_foldl]
  | case5 out x xs y ys hlt hgt ih =>
    rw [ih, kept, if_neg hlt, if_neg hgt, List.foldl_append, emitIf_eq_foldl]

theorem mem_emitted {wanted : Bool} {x p : Nat} :
    p ∈ (if wanted then [x] else []) ↔ wanted = true ∧ p = x := by
  cases wanted <;> simp

theorem mem_kept {keep : Keep} {xs ys : List Nat} (hxs : xs.Pairwise (· < ·))
    (hys : ys.Pairwise (· < ·)) (p : Nat) :
    p ∈ kept keep xs ys ↔ keep.left = true ∧ p ∈ xs ∧ p ∉ ys ∨
      keep.both = true ∧ p ∈ xs ∧ p ∈ ys ∨ keep.right = true ∧ p ∉ xs ∧ p ∈ ys := by
  fun_induction kept keep xs ys with
  | case1 ys h => simp [h]
  | case2 ys h => simp [h]
  | case3 xs hxs' h => simp [h]
  | case4 xs hxs' h => simp [h]
  | case5 x xs y ys hlt ih =>
    have hx := (List.pairwise_cons.1 hxs).1 p
    have hy := (List.pairwise_cons.1 hys).1 p
    rw [List.mem_append, mem_emitted, ih (List.pairwise_cons.1 hxs).2 hys, List.mem_cons,
      List.mem_cons]
    grind
  | case6 x xs y ys hlt hgt ih =>
    have hx := (List.pairwise_cons.1 hxs).1 p
    have hy := (List.pairwise_cons.1 hys).1 p
    rw [List.mem_append, mem_emitted, ih hxs (List.pairwise_cons.1 hys).2, List.mem_cons,
      List.mem_cons]
    grind
  | case7 x xs y ys hlt hgt ih =>
    have hx := (List.pairwise_cons.1 hxs).1 p
    have hy := (List.pairwise_cons.1 hys).1 p
    have hxy : x = y := by omega
    rw [List.mem_append, mem_emitted,
      ih (List.pairwise_cons.1 hxs).2 (List.pairwise_cons.1 hys).2, List.mem_cons, List.mem_cons]
    grind

theorem pairwise_kept {keep : Keep} {xs ys : List Nat} (hxs : xs.Pairwise (· < ·))
    (hys : ys.Pairwise (· < ·)) : (kept keep xs ys).Pairwise (· < ·) := by
  -- Whatever is emitted first lies below both remaining lists.
  have hcons : ∀ {wanted : Bool} {x : Nat} {xs ys : List Nat}, xs.Pairwise (· < ·) →
      ys.Pairwise (· < ·) → (∀ p ∈ xs, x < p) → (∀ p ∈ ys, x < p) →
      (kept keep xs ys).Pairwise (· < ·) →
      ((if wanted then [x] else []) ++ kept keep xs ys).Pairwise (· < ·) := by
    intro wanted x xs ys hxs hys hx hy hrest
    refine List.pairwise_append.2 ⟨by cases wanted <;> simp, hrest, fun p hp q hq => ?_⟩
    rw [mem_emitted] at hp
    rw [mem_kept hxs hys] at hq
    rw [hp.2]
    rcases hq with hq | hq | hq
    · exact hx q hq.2.1
    · exact hx q hq.2.1
    · exact hy q hq.2.2
  fun_induction kept keep xs ys with
  | case1 ys h => exact hys
  | case2 ys h => exact List.Pairwise.nil
  | case3 xs hxs' h => exact hxs
  | case4 xs hxs' h => exact List.Pairwise.nil
  | case5 x xs y ys hlt ih =>
    have hx := List.pairwise_cons.1 hxs
    have hy := List.pairwise_cons.1 hys
    refine hcons hx.2 hys hx.1 (fun p hp => ?_) (ih hx.2 hys)
    rcases List.mem_cons.1 hp with rfl | hp
    · exact hlt
    · exact hlt.trans (hy.1 p hp)
  | case6 x xs y ys hlt hgt ih =>
    have hx := List.pairwise_cons.1 hxs
    have hy := List.pairwise_cons.1 hys
    refine hcons hxs hy.2 (fun p hp => ?_) hy.1 (ih hxs hy.2)
    rcases List.mem_cons.1 hp with rfl | hp
    · exact hgt
    · exact hgt.trans (hx.1 p hp)
  | case7 x xs y ys hlt hgt ih =>
    have hx := List.pairwise_cons.1 hxs
    have hy := List.pairwise_cons.1 hys
    have hxy : x = y := by omega
    exact hcons hx.2 hy.2 hx.1 (fun p hp => by rw [hxy]; exact hy.1 p hp) (ih hx.2 hy.2)

theorem foldl_push (list : List Nat) (out : Array Nat) :
    (list.foldl Array.push out).toList = out.toList ++ list := by
  induction list generalizing out with
  | nil => simp
  | cons x rest ih => rw [List.foldl_cons, ih, Array.toList_push, List.append_assoc]; rfl

theorem foldl_count (list : List Nat) (n : Nat) :
    list.foldl (fun n _ => n + 1) n = n + list.length := by
  induction list generalizing n with
  | nil => rfl
  | cons x rest ih => rw [List.foldl_cons, ih, List.length_cons, Nat.add_right_comm, Nat.add_assoc]

variable {a b : SortedArray} {S T : Finset Nat}

theorem merge_denotes (ha : a.Denotes S) (hb : b.Denotes T) (keep : Keep) {U : Finset Nat}
    (hU : ∀ p, p ∈ U ↔ keep.left = true ∧ p ∈ S ∧ p ∉ T ∨ keep.both = true ∧ p ∈ S ∧ p ∈ T ∨
      keep.right = true ∧ p ∉ S ∧ p ∈ T) :
    Denotes ⟨merge keep Array.push a.toList b.toList #[]⟩ U := by
  have hsorted : (kept keep a.toList b.toList).Pairwise (· < ·) := pairwise_kept ha.1.1 hb.1.1
  refine denotes_of_list hsorted (fun p hp => ?_) (fun p => ?_)
    (by rw [toList, merge_eq_foldl, foldl_push]; rfl)
  · rcases (hU p).1 hp with h | h | h
    · exact ha.lt h.2.1
    · exact ha.lt h.2.1
    · exact hb.lt h.2.2
  · rw [mem_kept ha.1.1 hb.1.1, ha.mem_toList, hb.mem_toList, hU]

theorem union_denotes (ha : a.Denotes S) (hb : b.Denotes T) : (a.union b).Denotes (S ∪ T) := by
  refine merge_denotes ha hb .union fun p => ?_
  rw [Finset.mem_union]
  simp only [Keep.union]
  tauto

theorem difference_denotes (ha : a.Denotes S) (hb : b.Denotes T) :
    (a.difference b).Denotes (S \ T) := by
  refine merge_denotes ha hb .difference fun p => ?_
  rw [Finset.mem_sdiff]
  simp [Keep.difference]

theorem symmetricDifference_denotes (ha : a.Denotes S) (hb : b.Denotes T) :
    (a.symmetricDifference b).Denotes (symmDiff S T) := by
  refine merge_denotes ha hb .symmetricDifference fun p => ?_
  rw [Finset.mem_symmDiff]
  simp only [Keep.symmetricDifference]
  tauto

/-! Galloping. -/

theorem rel_of_getElem? {R : Nat → Nat → Prop} {xs : Array Nat} (hsorted : xs.toList.Pairwise R)
    {i j x y : Nat} (hij : i < j) (hx : xs[i]? = some x) (hy : xs[j]? = some y) : R x y := by
  obtain ⟨hi, rfl⟩ := Array.getElem?_eq_some_iff.1 hx
  obtain ⟨hj, rfl⟩ := Array.getElem?_eq_some_iff.1 hy
  exact List.pairwise_iff_getElem.1 hsorted i j (by simpa using hi) (by simpa using hj) hij

/-- A doubled bound passes the target or the end, and half of it passes neither. -/
theorem gallopBound_spec {xs : Array Nat} {start target fuel bound : Nat} (hpos : 1 ≤ bound)
    (hfuel : xs.size < fuel + bound)
    (hhalf : ∀ i x, start ≤ i → i < start + bound / 2 → xs[i]? = some x → x < target)
    (hsize : start + bound / 2 ≤ xs.size) (hsorted : xs.toList.Pairwise (· ≤ ·)) :
    (∀ i x, start ≤ i → i < start + gallopBound xs start target fuel bound / 2 →
        xs[i]? = some x → x < target) ∧
      start + gallopBound xs start target fuel bound / 2 ≤ xs.size ∧
      ∀ i x, start + gallopBound xs start target fuel bound ≤ i → xs[i]? = some x →
        target ≤ x := by
  have hpast : ∀ i x, xs.size ≤ i → xs[i]? = some x → target ≤ x := fun i x hi hx => by
    rw [Array.getElem?_eq_none hi] at hx
    exact absurd hx (by simp)
  induction fuel generalizing bound with
  | zero =>
    rw [gallopBound]
    exact ⟨hhalf, hsize, fun i x hi hx => hpast i x (by omega) hx⟩
  | succ fuel ih =>
    rw [gallopBound]
    by_cases hin : start + bound < xs.size
    · have hprobe : xs[start + bound - 1]? = some xs[start + bound - 1] :=
        Array.getElem?_eq_getElem (by omega)
      rw [if_pos hin, hprobe]
      dsimp only
      by_cases hlt : xs[start + bound - 1] < target
      · rw [if_pos hlt]
        refine ih (by omega) (by omega) (fun i x hi hib hx => ?_) (by omega)
        by_cases hlast : i = start + bound - 1
        · subst hlast
          rw [hprobe, Option.some_inj] at hx
          omega
        · have hbelow := rel_of_getElem? hsorted (by omega) hx hprobe
          omega
      · rw [if_neg hlt]
        refine ⟨hhalf, hsize, fun i x hi hx => ?_⟩
        have habove := rel_of_getElem? hsorted (by omega) hprobe hx
        omega
    · rw [if_neg hin]
      exact ⟨hhalf, hsize, fun i x hi hx => hpast i x (by omega) hx⟩

theorem gallop_spec {xs : Array Nat} {start : Nat} (hsorted : xs.toList.Pairwise (· ≤ ·))
    (hstart : start ≤ xs.size) (target : Nat) :
    start ≤ gallop xs start target ∧ gallop xs start target ≤ xs.size ∧
      ∀ i x, start ≤ i → xs[i]? = some x → (x < target ↔ i < gallop xs start target) := by
  obtain ⟨hhalf, hsize, habove⟩ := @gallopBound_spec xs start target xs.size 1 (by omega) (by omega)
    (fun i x hi hlt => by omega) (by omega) hsorted
  have hgallop : gallop xs start target = partitionPointIn (· < target) xs
      (start + gallopBound xs start target xs.size 1 / 2)
      (min (start + gallopBound xs start target xs.size 1) xs.size) := rfl
  generalize gallopBound xs start target xs.size 1 = bound at *
  have hlohi : start + bound / 2 ≤ min (start + bound) xs.size := by omega
  have hlead : Leading (· < target) xs (start + bound / 2) (min (start + bound) xs.size) :=
    leading_of_pairwise hsorted (fun x y hxy hy => by simp only [decide_eq_true_eq] at *; omega) _ _
  have hge : start + bound / 2 ≤ gallop xs start target := by
    rw [hgallop]
    exact partitionPointBetween_ge _ _ _ _ _
  have hle : gallop xs start target ≤ min (start + bound) xs.size := by
    rw [hgallop]
    exact partitionPointBetween_le _ _ _ hlohi
  refine ⟨by omega, by omega, fun i x hi hx => ?_⟩
  have hin : i < xs.size := (Array.getElem?_eq_some_iff.1 hx).1
  have hsplit := partitionPointBetween_splits (Nat.min_le_right (start + bound) xs.size)
    (Nat.le_refl _) hlead hx
  rw [← partitionPointIn, ← hgallop] at hsplit
  simp only [decide_eq_true_eq, decide_eq_false_iff_not] at hsplit
  constructor
  · intro hlt
    by_contra hnot
    by_cases hend : i < min (start + bound) xs.size
    · exact hsplit.2 (Nat.not_lt.1 hnot) hend hlt
    · have hfar := habove i x (by omega) hx
      omega
  · intro hlt
    by_cases hlow : start + bound / 2 ≤ i
    · exact hsplit.1 hlow hlt
    · exact hhalf i x hi (Nat.not_le.1 hlow) hx

section

variable {xs : Array Nat} {start y : Nat} (hsorted : xs.toList.Pairwise (· < ·))
  (hstart : start ≤ xs.size) (hbefore : ∀ i x, i < start → xs[i]? = some x → x < y)

include hsorted hstart hbefore

theorem lt_iff_lt_gallop {i x : Nat} (hx : xs[i]? = some x) : x < y ↔ i < gallop xs start y := by
  obtain ⟨hge, -, hiff⟩ := gallop_spec (hsorted.imp Nat.le_of_lt) hstart y
  by_cases hlow : start ≤ i
  · exact hiff i x hlow hx
  · have hi : i < start := Nat.not_le.1 hlow
    exact iff_of_true (hbefore i x hi hx) (Nat.lt_of_lt_of_le hi hge)

/-- Only the place that a gallop finds can hold its target. -/
theorem mem_iff_gallop : y ∈ xs.toList ↔ xs[gallop xs start y]? = some y := by
  constructor
  · intro hmem
    obtain ⟨i, hi⟩ := List.getElem?_of_mem hmem
    rw [Array.getElem?_toList] at hi
    have hnot : ¬i < gallop xs start y := fun hlt =>
      Nat.lt_irrefl y ((lt_iff_lt_gallop hsorted hstart hbefore hi).2 hlt)
    rcases Nat.lt_or_ge (gallop xs start y) i with hlt | hge
    · have hsize := (Array.getElem?_eq_some_iff.1 hi).1
      obtain ⟨x, hx⟩ : ∃ x, xs[gallop xs start y]? = some x :=
        ⟨_, Array.getElem?_eq_getElem (hlt.trans hsize)⟩
      have hxy := rel_of_getElem? hsorted hlt hx hi
      exact absurd ((lt_iff_lt_gallop hsorted hstart hbefore hx).1 hxy) (Nat.lt_irrefl _)
    · have heq : i = gallop xs start y := by omega
      rwa [heq] at hi
  · intro hy
    exact List.mem_of_getElem? ((Array.getElem?_toList).trans hy)

end

theorem gallopIntersection_eq_foldl (emit : β → Nat → β) {large : Array Nat}
    (hlarge : large.toList.Pairwise (· < ·)) {small : List Nat} (hsmall : small.Pairwise (· < ·))
    {start : Nat} (hstart : start ≤ large.size)
    (hbefore : ∀ i x, i < start → large[i]? = some x → ∀ y ∈ small, x < y) (out : β) :
    gallopIntersection emit large small start out =
      (small.filter (· ∈ large.toList)).foldl emit out := by
  induction small generalizing start out with
  | nil => rfl
  | cons y rest ih =>
    have hbeforey : ∀ i x, i < start → large[i]? = some x → x < y := fun i x hi hx =>
      hbefore i x hi hx y List.mem_cons_self
    obtain ⟨-, hle, -⟩ := gallop_spec (hlarge.imp Nat.le_of_lt) hstart y
    have hrest := List.pairwise_cons.1 hsmall
    have hmem := mem_iff_gallop hlarge hstart hbeforey
    have hbelow : ∀ i x, i < gallop large start y → large[i]? = some x → x < y := fun i x hi hx =>
      (lt_iff_lt_gallop hlarge hstart hbeforey hx).2 hi
    rw [gallopIntersection]
    split
    · rename_i found hfound
      rw [hfound] at hmem
      split
      · rename_i heq
        subst heq
        have hnext : gallop large start found + 1 ≤ large.size :=
          (Array.getElem?_eq_some_iff.1 hfound).1
        rw [List.filter_cons_of_pos (by simpa using hmem.2 rfl), List.foldl_cons]
        refine ih hrest.2 hnext (fun i x hi hx z hz => ?_) _
        have hz := hrest.1 z hz
        by_cases hi' : i < gallop large start found
        · have hx := hbelow i x hi' hx
          omega
        · have heq : i = gallop large start found := by omega
          rw [heq, hfound, Option.some_inj] at hx
          omega
      · rename_i hne
        have hnot : y ∉ large.toList := fun hy => hne (Option.some.inj (hmem.1 hy))
        rw [List.filter_cons_of_neg (by simpa using hnot)]
        refine ih hrest.2 hle (fun i x hi hx z hz => ?_) _
        exact (hbelow i x hi hx).trans (hrest.1 z hz)
    · rename_i hnone
      have hall : ∀ x ∈ large.toList, x < y := fun x hx => by
        obtain ⟨i, hi⟩ := List.getElem?_of_mem hx
        rw [Array.getElem?_toList] at hi
        have hlt := (Array.getElem?_eq_some_iff.1 hi).1
        exact hbelow i x (Nat.lt_of_lt_of_le hlt (Array.getElem?_eq_none_iff.1 hnone)) hi
      have hfilter : (y :: rest).filter (· ∈ large.toList) = [] := by
        rw [List.filter_eq_nil_iff]
        intro z hz hin
        have hlt := hall z (of_decide_eq_true hin)
        rcases List.mem_cons.1 hz with rfl | hz
        · exact Nat.lt_irrefl _ hlt
        · exact Nat.lt_asymm hlt (hrest.1 z hz)
      rw [hfilter]
      rfl

theorem filter_mem_comm {xs ys : List Nat} (hxs : xs.Pairwise (· < ·))
    (hys : ys.Pairwise (· < ·)) : ys.filter (· ∈ xs) = xs.filter (· ∈ ys) :=
  (hys.filter _).eq_of_mem_iff (hxs.filter _) fun p => by
    rw [List.mem_filter, List.mem_filter, decide_eq_true_eq, decide_eq_true_eq, and_comm]

theorem kept_intersection {xs ys : List Nat} (hxs : xs.Pairwise (· < ·))
    (hys : ys.Pairwise (· < ·)) : kept .intersection xs ys = xs.filter (· ∈ ys) :=
  (pairwise_kept hxs hys).eq_of_mem_iff (hxs.filter _) fun p => by
    rw [List.mem_filter, decide_eq_true_eq, mem_kept hxs hys]
    simp [Keep.intersection]

/-! The ways to an intersection. -/

inductive Way
  | merging
  | gallopingRight
  | gallopingLeft
deriving DecidableEq

namespace Way

def intersect (way : Way) (emit : β → Nat → β) (xs ys : Array Nat) (out : β) : β :=
  match way with
  | merging => merge .intersection emit xs.toList ys.toList out
  | gallopingRight => gallopIntersection emit ys xs.toList 0 out
  | gallopingLeft => gallopIntersection emit xs ys.toList 0 out

def ofSizes (m n : Nat) : Way :=
  if m * gallopFactor < n then gallopingRight
  else if n * gallopFactor < m then gallopingLeft
  else merging

theorem intersect_eq_foldl (way : Way) (emit : β → Nat → β) {xs ys : Array Nat}
    (hxs : xs.toList.Pairwise (· < ·)) (hys : ys.toList.Pairwise (· < ·)) (out : β) :
    way.intersect emit xs ys out = (xs.toList.filter (· ∈ ys.toList)).foldl emit out := by
  have hstart : ∀ {zs : Array Nat} {small : List Nat} (i x : Nat), i < 0 → zs[i]? = some x →
      ∀ y ∈ small, x < y := fun i x hi => absurd hi (Nat.not_lt_zero i)
  cases way with
  | merging => rw [intersect, merge_eq_foldl, kept_intersection hxs hys]
  | gallopingRight => exact gallopIntersection_eq_foldl emit hys hxs (Nat.zero_le _) hstart out
  | gallopingLeft =>
    rw [intersect, gallopIntersection_eq_foldl emit hxs hys (Nat.zero_le _) hstart,
      filter_mem_comm hxs hys]

theorem intersectInto_eq (emit : β → Nat → β) (xs ys : Array Nat) (out : β) :
    intersectInto emit xs ys out = (ofSizes xs.size ys.size).intersect emit xs ys out := by
  rw [intersectInto, ofSizes]
  split_ifs <;> rfl

end Way

theorem intersectInto_eq_foldl (emit : β → Nat → β) {xs ys : Array Nat}
    (hxs : xs.toList.Pairwise (· < ·)) (hys : ys.toList.Pairwise (· < ·)) (out : β) :
    intersectInto emit xs ys out = (xs.toList.filter (· ∈ ys.toList)).foldl emit out := by
  rw [Way.intersectInto_eq, Way.intersect_eq_foldl _ emit hxs hys]

theorem intersection_denotes (ha : a.Denotes S) (hb : b.Denotes T) :
    (a.intersection b).Denotes (S ∩ T) := by
  have hlist : (a.intersection b).toList = a.toList.filter (· ∈ b.toList) := by
    rw [toList, intersection, intersectInto_eq_foldl Array.push ha.1.1 hb.1.1, foldl_push]
    rfl
  refine denotes_of_list (ha.1.1.filter _) (fun p hp => ?_) (fun p => ?_) hlist
  · exact ha.lt (Finset.mem_inter.1 hp).1
  · rw [List.mem_filter, decide_eq_true_eq, ha.mem_toList, hb.mem_toList, Finset.mem_inter]

end ChunkedSet.SortedArray
