import Mathlib.Algebra.BigOperators.Group.List.Basic
import Mathlib.Algebra.GroupWithZero.Nat
import Mathlib.Order.Interval.Finset.Nat
import ChunkedSet.Block.Words
import ChunkedSet.Proofs.Word

/-!
# Words as sets of positions

Updates of a block of words, word by word or by ranges, in terms of the positions that are set.
Counts over ranges are cardinalities, and the listing of all set positions is a filter of all
positions.
-/

namespace ChunkedSet.Words

open Word

theorem contains_eq_has (ws : Words) (p : Nat) :
    ws.contains p = has (ws.word (p / 64)) (p % 64) :=
  and_bit_ne_zero _ (Nat.mod_lt p (by decide))

theorem word_of_ge {ws : Words} {k : Nat} (h : 1024 ≤ k) : ws.word k = 0 := by
  rw [word, dif_neg (by omega)]

theorem has_word {i : Nat} (ws : Words) (k : Nat) (hi : i < 64) :
    has (ws.word k) i = ws.contains (64 * k + i) := by
  have hk : (64 * k + i) / 64 = k := by omega
  have hmod : (64 * k + i) % 64 = i := by omega
  rw [contains_eq_has, hk, hmod]

theorem lt_of_contains {ws : Words} {p : Nat} (h : ws.contains p = true) : p < chunkSize := by
  by_contra hp
  rw [contains_eq_has, word_of_ge (by unfold chunkSize at hp; omega), has_zero] at h
  exact Bool.false_ne_true h

theorem toList_eq_map_word (ws : Words) : ws.toList = (List.range' 0 1024).map ws.word := by
  refine List.ext_getElem (by simp) fun k hk _ => ?_
  have hlt : k < 1024 := by simpa using hk
  simp [word, hlt]

theorem ext_contains {ws xs : Words} (h : ∀ p, ws.contains p = xs.contains p) : ws = xs := by
  refine Vector.ext fun k hk => ext_has fun i hi => ?_
  have hw : ws[k] = ws.word k := by rw [word, dif_pos hk]
  have hx : xs[k] = xs.word k := by rw [word, dif_pos hk]
  rw [hw, hx, has_word ws k hi, has_word xs k hi, h]

theorem contains_empty (p : Nat) : empty.contains p = false := by
  have hzero : empty.word (p / 64) = 0 := by simp [word, empty]
  rw [contains_eq_has, hzero, has_zero]

theorem word_update (ws : Words) (k : Nat) (f : UInt64 → UInt64) (j : Nat) :
    (ws.update k f).word j = if j = k ∧ k < 1024 then f (ws.word k) else ws.word j := by
  unfold update word
  by_cases hk : k < 1024
  · by_cases hj : j < 1024
    · by_cases hjk : j = k
      · subst hjk
        simp [hk]
      · simp [hk, hj, hjk, Vector.getElem_set_ne, Ne.symm hjk]
    · have hjk : ¬j = k := by omega
      simp [hj, hjk]
  · simp [hk]

/-- An update that changes each bit by its bit of the mask, and keeps it where that is clear. -/
theorem contains_update_bitwise {p : Nat} {f : UInt64 → UInt64 → UInt64} {g : Bool → Bool → Bool}
    (hbit : ∀ mask w i, has (f mask w) i = g (has w i) (has mask i)) (hclear : ∀ b, g b false = b)
    (ws : Words) (hp : p < chunkSize) (q : Nat) :
    (ws.update (p / 64) (f (bit (p % 64)))).contains q = g (ws.contains q) (decide (q = p)) := by
  have hword : p / 64 < 1024 := by unfold chunkSize at hp; omega
  rw [contains_eq_has, contains_eq_has, word_update]
  by_cases h : q / 64 = p / 64
  · have hsame : q % 64 = p % 64 ↔ q = p := by omega
    rw [if_pos ⟨h, hword⟩, hbit, has_bit _ (by omega), decide_eq_decide.2 hsame, h]
  · have hne : ¬q = p := fun hqp => h (by rw [hqp])
    rw [if_neg fun h' => h h'.1, decide_eq_false hne, hclear]

theorem contains_insert {p : Nat} (ws : Words) (hp : p < chunkSize) (q : Nat) :
    (ws.insert p).contains q = (decide (q = p) || ws.contains q) := by
  rw [Bool.or_comm]
  exact contains_update_bitwise (fun mask w => has_or w mask) Bool.or_false ws hp q

theorem contains_erase {p : Nat} (ws : Words) (hp : p < chunkSize) (q : Nat) :
    (ws.erase p).contains q = (decide (q ≠ p) && ws.contains q) := by
  rw [Bool.and_comm, decide_not]
  exact contains_update_bitwise (g := fun b m => b && !m) (fun mask w => has_and_not w mask)
    Bool.and_true ws hp q

theorem contains_zipWith {f : UInt64 → UInt64 → UInt64} {g : Bool → Bool → Bool}
    (hf : ∀ v w i, i < 64 → has (f v w) i = g (has v i) (has w i)) (hg : g false false = false)
    (ws xs : Words) (p : Nat) :
    (contains (Vector.zipWith f ws xs) p) = g (ws.contains p) (xs.contains p) := by
  rw [contains_eq_has, contains_eq_has, contains_eq_has]
  by_cases h : p / 64 < 1024
  · have hword : word (Vector.zipWith f ws xs) (p / 64) = f (ws.word (p / 64)) (xs.word (p / 64)) := by
      simp [word, h]
    rw [hword, hf _ _ _ (Nat.mod_lt p (by decide))]
  · simp [word_of_ge (Nat.le_of_not_lt h), hg]

/-! Ranges. -/

theorem has_rangeMask {lo hi k i : Nat} (hlo : lo / 64 ≤ k) (hhi : k ≤ hi / 64) (h : i < 64) :
    has (rangeMask lo hi k) i = decide (lo ≤ 64 * k + i ∧ 64 * k + i ≤ hi) := by
  have hlow : has (if k = lo / 64 then upward (lo % 64) else ones) i = decide (lo ≤ 64 * k + i) := by
    split
    · rw [has_upward i (Nat.mod_lt lo (by decide)), decide_eq_true h, Bool.true_and,
        decide_eq_decide]
      omega
    · rw [has_ones h, eq_comm, decide_eq_true_eq]
      omega
  have hhigh : has (if k = hi / 64 then downward (hi % 64) else ones) i =
      decide (64 * k + i ≤ hi) := by
    split
    · rw [has_downward i (Nat.mod_lt hi (by decide)), decide_eq_decide]
      omega
    · rw [has_ones h, eq_comm, decide_eq_true_eq]
      omega
  rw [rangeMask, has_and, hlow, hhigh, Bool.decide_and]

theorem word_foldl_update {ks : List Nat} (hks : ks.Nodup) (mask : Nat → UInt64)
    (f : Nat → UInt64 → UInt64 → UInt64) (ws : Words) (j : Nat) :
    ((ks.map fun k => (k, mask k)).foldl (fun ws km => ws.update km.1 (f km.1 km.2)) ws).word j =
      if j ∈ ks ∧ j < 1024 then f j (mask j) (ws.word j) else ws.word j := by
  induction ks generalizing ws with
  | nil => simp
  | cons k ks ih =>
    rw [List.nodup_cons] at hks
    simp only [List.map_cons, List.foldl_cons, ih hks.2, word_update, List.mem_cons]
    by_cases hjk : j = k
    · subst hjk
      simp [hks.1]
    · simp [hjk]

theorem contains_updateRange {p : Nat} (ws : Words) (lo hi : Nat)
    (f : Nat → UInt64 → UInt64 → UInt64) (hp : p < chunkSize) :
    (ws.updateRange lo hi f).contains p =
      if lo / 64 ≤ p / 64 ∧ p / 64 ≤ hi / 64 then
        has (f (p / 64) (rangeMask lo hi (p / 64)) (ws.word (p / 64))) (p % 64)
      else ws.contains p := by
  have hword : p / 64 < 1024 := by unfold chunkSize at hp; omega
  have hmem : p / 64 ∈ List.range' (lo / 64) (hi / 64 + 1 - lo / 64) ↔
      lo / 64 ≤ p / 64 ∧ p / 64 ≤ hi / 64 := by
    rw [List.mem_range'_1]
    omega
  rw [contains_eq_has, contains_eq_has, updateRange, rangeMasks,
    word_foldl_update (List.nodup_range' 1)]
  simp only [hmem, hword, and_true]
  split <;> rfl

theorem contains_updateRange_bitwise {p : Nat} {f : UInt64 → UInt64 → UInt64}
    {g : Bool → Bool → Bool} (hbit : ∀ mask w i, has (f mask w) i = g (has w i) (has mask i))
    (hclear : ∀ b, g b false = b) (ws : Words) (lo hi : Nat) (hp : p < chunkSize) :
    (ws.updateRange lo hi fun _ => f).contains p = g (ws.contains p) (decide (lo ≤ p ∧ p ≤ hi)) := by
  have hmod : p % 64 < 64 := Nat.mod_lt p (by decide)
  rw [contains_updateRange ws lo hi _ hp]
  split
  · rename_i h
    rw [hbit, has_rangeMask h.1 h.2 hmod, Nat.div_add_mod, contains_eq_has]
  · have hout : ¬(lo ≤ p ∧ p ≤ hi) := by omega
    rw [decide_eq_false hout, hclear]

theorem contains_insertRange {p : Nat} (ws : Words) (lo hi : Nat) (hp : p < chunkSize) :
    (ws.insertRange lo hi).contains p = (ws.contains p || decide (lo ≤ p ∧ p ≤ hi)) :=
  contains_updateRange_bitwise (fun mask w => has_or w mask) Bool.or_false ws lo hi hp

theorem contains_eraseRange {p : Nat} (ws : Words) (lo hi : Nat) (hp : p < chunkSize) :
    (ws.eraseRange lo hi).contains p = (ws.contains p && !decide (lo ≤ p ∧ p ≤ hi)) :=
  contains_updateRange_bitwise (g := fun b m => b && !m) (fun mask w => has_and_not w mask)
    Bool.and_true ws lo hi hp

theorem contains_flipRange {p : Nat} (ws : Words) (lo hi : Nat) (hp : p < chunkSize) :
    (ws.flipRange lo hi).contains p = (ws.contains p ^^ decide (lo ≤ p ∧ p ≤ hi)) :=
  contains_updateRange_bitwise (fun mask w => has_xor w mask) Bool.xor_false ws lo hi hp

/-! Counts. -/

def support (ws : Words) : Finset Nat := (Finset.range chunkSize).filter (ws.contains · = true)

@[simp] theorem mem_support {ws : Words} {p : Nat} : p ∈ ws.support ↔ ws.contains p = true := by
  rw [support, Finset.mem_filter, Finset.mem_range, and_iff_right_iff_imp]
  exact lt_of_contains

theorem count_congr {P Q : Nat → Bool} {n : Nat} (h : ∀ i < n, P i = Q i) :
    Nat.count (P · = true) n = Nat.count (Q · = true) n := by
  rw [Nat.count_eq_card_filter_range, Nat.count_eq_card_filter_range]
  exact congrArg Finset.card (Finset.filter_congr fun i hi => by rw [h i (Finset.mem_range.1 hi)])

theorem count_add_sum (R : Nat → Bool) (a n : Nat) :
    Nat.count (R · = true) (64 * a) +
        ((List.range' a n).map fun k => Nat.count (fun i => R (64 * k + i) = true) 64).sum =
      Nat.count (R · = true) (64 * (a + n)) := by
  induction n generalizing a with
  | zero => simp
  | succ n ih =>
    have hstep := Nat.count_add (R · = true) (64 * a) 64
    have hnext := ih (a + 1)
    rw [List.range'_succ, List.map_cons, List.sum_cons, ← Nat.add_assoc, ← hstep,
      show 64 * a + 64 = 64 * (a + 1) by omega, hnext, show a + 1 + n = a + (n + 1) by omega]

theorem foldl_add_eq_sum {α : Type} (f : α → Nat) (xs : List α) (n : Nat) :
    xs.foldl (fun n x => n + f x) n = n + (xs.map f).sum := by
  induction xs generalizing n with
  | nil => simp
  | cons x xs ih => rw [List.foldl_cons, ih, List.map_cons, List.sum_cons, Nat.add_assoc]

theorem popcount_eq_sum (ws : Words) : ws.popcount = (ws.toList.map Word.popcount).sum := by
  rw [popcount, ← Vector.foldl_toList, foldl_add_eq_sum, Nat.zero_add]

theorem popcount_eq_card (ws : Words) : ws.popcount = ws.support.card := by
  have hsum := count_add_sum ws.contains 0 1024
  rw [Nat.mul_zero, Nat.count_zero, Nat.zero_add] at hsum
  rw [popcount_eq_sum, toList_eq_map_word, List.map_map, support, chunkSize,
    ← Nat.count_eq_card_filter_range, ← hsum]
  refine congrArg List.sum (List.map_congr_left fun k _ => ?_)
  rw [Function.comp_apply, popcount_eq_count]
  exact count_congr fun i hi => has_word ws k hi

/-- A sum over a range counts the positions of the range with property `Q`, if the counted words
have their bits at these positions. -/
theorem sumRange_eq_card (ws : Words) (lo hi : Nat) (f : Nat → UInt64 → UInt64 → UInt64)
    (Q : Nat → Bool)
    (hf : ∀ k i, lo / 64 ≤ k → k ≤ hi / 64 → i < 64 →
      has (f k (rangeMask lo hi k) (ws.word k)) i =
        (decide (lo ≤ 64 * k + i ∧ 64 * k + i ≤ hi) && Q (64 * k + i))) :
    ws.sumRange lo hi f = ((Finset.Icc lo hi).filter (Q · = true)).card := by
  let R : Nat → Bool := fun p => decide (lo ≤ p ∧ p ≤ hi) && Q p
  have hsum := count_add_sum R (lo / 64) (hi / 64 + 1 - lo / 64)
  have hbefore : Nat.count (R · = true) (64 * (lo / 64)) = 0 := by
    rw [Nat.count_iff_forall_not]
    intro p hp
    simp only [R, Bool.and_eq_true, decide_eq_true_eq]
    omega
  rw [hbefore, Nat.zero_add] at hsum
  rw [sumRange, rangeMasks, foldl_add_eq_sum, Nat.zero_add, List.map_map]
  calc
    _ = ((List.range' (lo / 64) (hi / 64 + 1 - lo / 64)).map fun k =>
          Nat.count (fun i => R (64 * k + i) = true) 64).sum := by
      refine congrArg List.sum (List.map_congr_left fun k hk => ?_)
      rw [List.mem_range'_1] at hk
      rw [Function.comp_apply, popcount_eq_count]
      exact count_congr fun i hi' => hf k i hk.1 (by omega) hi'
    _ = Nat.count (R · = true) (64 * (lo / 64 + (hi / 64 + 1 - lo / 64))) := hsum
    _ = ((Finset.Icc lo hi).filter (Q · = true)).card := by
      rw [Nat.count_eq_card_filter_range]
      refine congrArg Finset.card (Finset.ext fun p => ?_)
      simp only [R, Finset.mem_filter, Finset.mem_range, Finset.mem_Icc, Bool.and_eq_true,
        decide_eq_true_eq]
      refine ⟨fun h => h.2, fun h => ⟨?_, h⟩⟩
      omega

theorem rangeSize_eq_card (ws : Words) (lo hi : Nat) :
    ws.rangeSize lo hi = (Finset.Icc lo hi ∩ ws.support).card := by
  rw [rangeSize, sumRange_eq_card ws lo hi _ ws.contains]
  · refine congrArg Finset.card (Finset.ext fun p => ?_)
    simp
  · intro k i hlo hhi hi'
    rw [has_and, has_rangeMask hlo hhi hi', has_word ws k hi', Bool.and_comm]

theorem sumRange_missing (ws : Words) (lo hi : Nat) :
    (ws.sumRange lo hi fun _ mask w => mask &&& ~~~w) = (Finset.Icc lo hi \ ws.support).card := by
  rw [sumRange_eq_card ws lo hi _ fun p => !ws.contains p]
  · refine congrArg Finset.card (Finset.ext fun p => ?_)
    simp
  · intro k i hlo hhi hi'
    rw [has_and_not, has_rangeMask hlo hhi hi', has_word ws k hi']

theorem sumRange_width (ws : Words) (lo hi : Nat) :
    (ws.sumRange lo hi fun _ mask _ => mask) = (Finset.Icc lo hi).card := by
  rw [sumRange_eq_card ws lo hi _ fun _ => true]
  · simp
  · intro k i hlo hhi hi'
    rw [has_rangeMask hlo hhi hi', Bool.and_true]

/-! Listing the positions. -/

def bitsFrom : List UInt64 → Nat → List Nat
  | [], _ => []
  | w :: rest, p => (bits w).map (p + ·) ++ bitsFrom rest (p + 64)

theorem toList_pushBits (n : Nat) (w : UInt64) (p : Nat) (out : Array Nat) :
    (pushBits n w p out).toList = out.toList ++ ((List.range n).filter (has w)).map (p + ·) := by
  induction n generalizing w p out with
  | zero => simp [pushBits]
  | succ n ih =>
    rw [pushBits]
    split
    · rename_i h
      subst h
      simp
    · have hshift : has (w >>> 1) = has w ∘ Nat.succ := funext fun i => has_half w i
      have hpos : (fun i => p + 1 + i) = (fun i => p + i) ∘ Nat.succ := by
        funext i
        simp only [Function.comp_apply]
        omega
      rw [ih, List.range_succ_eq_map, List.filter_cons, List.filter_map, hshift, hpos]
      by_cases h0 : has w 0 = true
      · rw [if_pos ((and_one_eq_one w).2 h0), if_pos h0]
        simp
      · rw [if_neg (fun h => h0 ((and_one_eq_one w).1 h)), if_neg h0]
        simp

theorem positions_eq_bitsFrom (ws : Words) : ws.positions.toList = bitsFrom ws.toList 0 := by
  have hfold : ∀ (list : List UInt64) (p : Nat) (out : Array Nat),
      (list.foldl (fun (kp : Nat × Array Nat) w => (kp.1 + 64, pushBits 64 w kp.1 kp.2))
        (p, out)).2.toList = out.toList ++ bitsFrom list p := by
    intro list
    induction list with
    | nil => simp [bitsFrom]
    | cons w rest ih =>
      intro p out
      rw [List.foldl_cons, ih, toList_pushBits, bitsFrom, List.append_assoc]
      rfl
  rw [positions, ← Vector.foldl_toList, hfold]
  rfl

theorem bitsFrom_map_word (ws : Words) (a n : Nat) :
    bitsFrom ((List.range' a n).map ws.word) (64 * a) =
      (List.range' (64 * a) (64 * n)).filter ws.contains := by
  induction n generalizing a with
  | zero => rfl
  | succ n ih =>
    have hsplit : List.range' (64 * a) (64 * (n + 1)) =
        List.range' (64 * a) 64 ++ List.range' (64 * (a + 1)) (64 * n) := by
      rw [show 64 * (a + 1) = 64 * a + 64 by omega, List.range'_append_1,
        show 64 * (n + 1) = 64 + 64 * n by omega]
    have hfirst : (bits (ws.word a)).map (64 * a + ·) =
        (List.range' (64 * a) 64).filter ws.contains := by
      rw [List.range'_eq_map_range, List.filter_map, bits]
      refine congrArg (List.map _) (List.filter_congr fun i hi => ?_)
      exact has_word ws a (List.mem_range.1 hi)
    rw [List.range'_succ, List.map_cons, bitsFrom, show 64 * a + 64 = 64 * (a + 1) by omega, ih,
      hsplit, List.filter_append, hfirst]

theorem positions_eq_filter (ws : Words) :
    ws.positions.toList = (List.range chunkSize).filter ws.contains := by
  rw [positions_eq_bitsFrom, toList_eq_map_word, List.range_eq_range']
  exact bitsFrom_map_word ws 0 1024

theorem mem_positions {ws : Words} {p : Nat} :
    p ∈ ws.positions.toList ↔ ws.contains p = true := by
  rw [positions_eq_filter, List.mem_filter, List.mem_range, and_iff_right_iff_imp]
  exact lt_of_contains

theorem pairwise_positions (ws : Words) : ws.positions.toList.Pairwise (· < ·) := by
  rw [positions_eq_filter]
  exact List.pairwise_lt_range.filter _

theorem size_positions (ws : Words) : ws.positions.size = ws.popcount := by
  rw [popcount_eq_card, support, ← Nat.count_eq_card_filter_range, Nat.count,
    List.countP_eq_length_filter, ← Array.length_toList, positions_eq_filter]
  simp only [Bool.decide_eq_true]

end ChunkedSet.Words
