import Mathlib.Data.Nat.Count
import Mathlib.Data.List.Sort
import ChunkedSet.Word

/-!
# Bits of words

The bits of a word as a predicate on indices and as an increasing list. Masks, counts and the
clearing of bits from either end are read off these two views.
-/

namespace ChunkedSet.Word

def has (w : UInt64) (i : Nat) : Bool := w.toBitVec.getLsbD i

def bits (w : UInt64) : List Nat := (List.range 64).filter (has w)

theorem has_ge {w : UInt64} {i : Nat} (h : 64 ≤ i) : has w i = false :=
  BitVec.getLsbD_of_ge _ _ h

theorem lt_of_has {w : UInt64} {i : Nat} (h : has w i = true) : i < 64 := by
  by_contra hi
  rw [has_ge (by omega)] at h
  exact Bool.false_ne_true h

theorem ext_has {v w : UInt64} (h : ∀ i < 64, has v i = has w i) : v = w :=
  UInt64.toBitVec_inj.1 (BitVec.eq_of_getLsbD_eq h)

@[simp] theorem has_zero (i : Nat) : has 0 i = false := by
  simp [has]

@[simp] theorem has_or (v w : UInt64) (i : Nat) : has (v ||| w) i = (has v i || has w i) := by
  simp [has]

@[simp] theorem has_and (v w : UInt64) (i : Nat) : has (v &&& w) i = (has v i && has w i) := by
  simp [has]

@[simp] theorem has_xor (v w : UInt64) (i : Nat) : has (v ^^^ w) i = (has v i ^^ has w i) := by
  simp [has]

theorem has_not {i : Nat} (w : UInt64) (h : i < 64) : has (~~~w) i = !has w i := by
  simp [has, h]

theorem has_and_not (v w : UInt64) (i : Nat) : has (v &&& ~~~w) i = (has v i && !has w i) := by
  by_cases h : i < 64
  · rw [has_and, has_not w h]
  · simp [has_ge (Nat.le_of_not_lt h)]

theorem has_ones {i : Nat} (h : i < 64) : has ones i = true := by
  have hall : ones.toBitVec = BitVec.allOnes 64 := by decide
  rw [has, hall, BitVec.getLsbD_allOnes, decide_eq_true h]

theorem has_shiftLeft {k : Nat} (w : UInt64) (i : Nat) (hk : k < 64) :
    has (w <<< UInt64.ofNat k) i = (decide (i < 64) && decide (k ≤ i) && has w (i - k)) := by
  have hmod : k % 18446744073709551616 % 64 = k := by omega
  simp only [has, UInt64.toBitVec_shiftLeft, UInt64.toBitVec_ofNat', BitVec.shiftLeft_eq',
    BitVec.toNat_umod, BitVec.toNat_ofNat, Nat.reducePow, BitVec.getLsbD_shiftLeft]
  grind

theorem has_shiftRight {k : Nat} (w : UInt64) (i : Nat) (hk : k < 64) :
    has (w >>> UInt64.ofNat k) i = has w (k + i) := by
  have hmod : k % 18446744073709551616 % 64 = k := by omega
  simp [has, hmod]

theorem has_half (w : UInt64) (i : Nat) : has (w >>> 1) i = has w (i + 1) := by
  rw [Nat.add_comm i 1]
  exact has_shiftRight w i (by decide)

theorem has_bit {k : Nat} (i : Nat) (hk : k < 64) : has (bit k) i = decide (i = k) := by
  rw [bit, has_shiftLeft 1 i hk]
  have hone : has 1 (i - k) = decide (i - k = 0) := by
    simp [has, BitVec.getLsbD_one]
  rw [hone]
  grind

theorem has_upward {k : Nat} (i : Nat) (hk : k < 64) :
    has (upward k) i = (decide (i < 64) && decide (k ≤ i)) := by
  rw [upward, has_shiftLeft ones i hk]
  by_cases h : i < 64 ∧ k ≤ i
  · rw [has_ones (by omega), Bool.and_true]
  · grind

theorem has_downward {k : Nat} (i : Nat) (hk : k < 64) : has (downward k) i = decide (i ≤ k) := by
  rw [downward, has_shiftRight ones i (by omega)]
  by_cases h : i ≤ k
  · rw [has_ones (by omega), decide_eq_true h]
  · rw [has_ge (by omega), decide_eq_false h]

theorem eq_zero_iff {w : UInt64} : w = 0 ↔ ∀ i < 64, has w i = false := by
  constructor
  · intro h i _
    rw [h]
    exact has_zero i
  · intro h
    exact ext_has fun i hi => by rw [h i hi, has_zero]

theorem ne_zero_of_has {w : UInt64} {i : Nat} (h : has w i = true) : w ≠ 0 := by
  intro hw
  rw [hw] at h
  simp at h

theorem and_bit_ne_zero {k : Nat} (w : UInt64) (hk : k < 64) :
    (w &&& bit k != 0) = has w k := by
  rw [Bool.eq_iff_iff, bne_iff_ne]
  constructor
  · intro h
    by_contra hw
    refine h (eq_zero_iff.2 fun i _ => ?_)
    rw [has_and, has_bit i hk]
    by_cases hik : i = k
    · subst hik
      simp [hw]
    · simp [hik]
  · intro h
    exact ne_zero_of_has (i := k) (by rw [has_and, has_bit k hk, h]; simp)

theorem and_one_toNat (w : UInt64) : (w &&& 1).toNat = if has w 0 then 1 else 0 := by
  have hmod : (w &&& 1).toNat = w.toNat % 2 := by
    rw [UInt64.toNat_and]
    exact Nat.and_one_is_mod w.toNat
  have hbit : has w 0 = decide (w.toNat % 2 = 1) := Nat.testBit_zero w.toNat
  rw [hmod, hbit]
  rcases Nat.mod_two_eq_zero_or_one w.toNat with h | h <;> simp [h]

theorem and_one_eq_one (w : UInt64) : w &&& 1 = 1 ↔ has w 0 = true := by
  rw [← UInt64.toNat_inj, and_one_toNat]
  cases has w 0 <;> simp

theorem countLow_eq_count (n : Nat) (w : UInt64) :
    countLow n w = Nat.count (fun i => has w i = true) n := by
  induction n generalizing w with
  | zero => rfl
  | succ n ih =>
    rw [countLow]
    split
    · rename_i h
      subst h
      simp
    · rw [Nat.count_succ', ih, and_one_toNat, Nat.add_comm]
      simp only [has_half]

theorem length_bits (w : UInt64) : (bits w).length = popcount w := by
  rw [popcount, countLow_eq_count, Nat.count, List.countP_eq_length_filter, bits]
  simp only [Bool.decide_eq_true]

theorem popcount_eq_count (w : UInt64) :
    popcount w = Nat.count (fun i => has w i = true) 64 :=
  countLow_eq_count 64 w

theorem mem_bits {w : UInt64} {i : Nat} : i ∈ bits w ↔ has w i = true := by
  simp only [bits, List.mem_filter, List.mem_range, and_iff_right_iff_imp]
  exact lt_of_has

theorem pairwise_bits (w : UInt64) : (bits w).Pairwise (· < ·) :=
  List.pairwise_lt_range.filter _

theorem bits_eq_nil {w : UInt64} : bits w = [] ↔ w = 0 := by
  rw [eq_zero_iff, bits, List.filter_eq_nil_iff]
  simp

/-! The ends of a word that is not zero. -/

theorem zerosLow_spec {n : Nat} {w : UInt64} (h : ∃ i < n, has w i = true) :
    has w (zerosLow n w) = true ∧ ∀ i < zerosLow n w, has w i = false := by
  induction n generalizing w with
  | zero =>
    obtain ⟨i, hi, -⟩ := h
    omega
  | succ n ih =>
    rw [zerosLow]
    split
    · rename_i hone
      exact ⟨(and_one_eq_one w).1 hone, fun i hi => by omega⟩
    · rename_i hone
      have hzero : has w 0 = false := by simpa [and_one_eq_one] using hone
      obtain ⟨i, hi, hbit⟩ := h
      have hshift : ∃ i < n, has (w >>> 1) i = true := by
        cases i with
        | zero => simp [hzero] at hbit
        | succ i => exact ⟨i, by omega, by rw [has_half]; exact hbit⟩
      obtain ⟨hfound, hbelow⟩ := ih hshift
      rw [has_half] at hfound
      refine ⟨hfound, fun j hj => ?_⟩
      cases j with
      | zero => exact hzero
      | succ j =>
        rw [← has_half]
        exact hbelow j (by omega)

theorem exists_has {w : UInt64} (h : w ≠ 0) : ∃ i < 64, has w i = true := by
  by_contra hnone
  exact h (eq_zero_iff.2 (by simpa using hnone))

theorem has_lowest {w : UInt64} (h : w ≠ 0) : has w (lowest w) = true :=
  (zerosLow_spec (exists_has h)).1

theorem lowest_lt {w : UInt64} (h : w ≠ 0) : lowest w < 64 := lt_of_has (has_lowest h)

theorem has_below_lowest {w : UInt64} {i : Nat} (h : w ≠ 0) (hi : i < lowest w) :
    has w i = false :=
  (zerosLow_spec (exists_has h)).2 i hi

theorem highest_eq_log2 (w : UInt64) : highest w = w.toNat.log2 := by
  rw [highest, UInt64.log2]
  exact rfl

theorem toNat_ne_zero {w : UInt64} (h : w ≠ 0) : w.toNat ≠ 0 := fun hw =>
  h (UInt64.toNat_inj.1 (by rw [hw]; rfl))

theorem has_highest {w : UInt64} (h : w ≠ 0) : has w (highest w) = true := by
  rw [highest_eq_log2]
  exact Nat.testBit_log2 (toNat_ne_zero h)

theorem highest_lt {w : UInt64} (h : w ≠ 0) : highest w < 64 := lt_of_has (has_highest h)

theorem has_above_highest {w : UInt64} {i : Nat} (hi : highest w < i) : has w i = false := by
  rw [highest_eq_log2] at hi
  exact Nat.testBit_lt_two_pow (Nat.lt_of_lt_of_le Nat.lt_log2_self
    (Nat.pow_le_pow_right (by decide) hi))

theorem has_pred {n k : Nat} (hk : n.testBit k = true) (hbelow : ∀ i < k, n.testBit i = false)
    (i : Nat) : (n.testBit i && (n - 1).testBit i) = (n.testBit i && decide (i ≠ k)) := by
  induction k generalizing n i with
  | zero =>
    have hodd : n % 2 = 1 := by simpa [Nat.testBit_zero] using hk
    cases i with
    | zero =>
      have heven : (n - 1) % 2 = 0 := by omega
      simp [Nat.testBit_zero, heven]
    | succ i =>
      have hhalf : (n - 1) / 2 = n / 2 := by omega
      simp [Nat.testBit_succ, hhalf]
  | succ k ih =>
    have heven : n % 2 = 0 := by simpa [Nat.testBit_zero] using hbelow 0 (by omega)
    cases i with
    | zero => simp [Nat.testBit_zero, heven]
    | succ i =>
      have hhalf : (n - 1) / 2 = n / 2 - 1 := by
        rcases Nat.eq_zero_or_pos n with rfl | hpos <;> omega
      have hlow : ∀ i < k, (n / 2).testBit i = false := fun i hi => by
        rw [← Nat.testBit_succ]
        exact hbelow (i + 1) (by omega)
      rw [Nat.testBit_succ] at hk
      simpa [Nat.testBit_succ, hhalf] using ih hk hlow i

theorem has_dropLowest {w : UInt64} (h : w ≠ 0) (i : Nat) :
    has (dropLowest w) i = (has w i && decide (i ≠ lowest w)) := by
  have hsub : (w - 1).toNat = w.toNat - 1 :=
    UInt64.toNat_sub_of_le w 1 (UInt64.le_iff_toNat_le.2 (Nat.pos_of_ne_zero (toNat_ne_zero h)))
  have hpred := has_pred (has_lowest h) (fun i hi => has_below_lowest h hi) i
  rw [dropLowest, has_and]
  have hbit : has (w - 1) i = (w.toNat - 1).testBit i := by rw [← hsub]; rfl
  rw [hbit]
  exact hpred

theorem has_dropHighest {w : UInt64} (h : w ≠ 0) (i : Nat) :
    has (dropHighest w) i = (has w i && decide (i ≠ highest w)) := by
  rw [dropHighest, has_and_not, has_bit i (highest_lt h), decide_not]

theorem bits_dropLowest (w : UInt64) : bits (dropLowest w) = (bits w).tail := by
  by_cases h : w = 0
  · subst h
    decide
  · have hmem := mem_bits.2 (has_lowest h)
    have hsorted := pairwise_bits w
    cases hbits : bits w with
    | nil => exact absurd (bits_eq_nil.1 hbits) h
    | cons a rest =>
      rw [hbits, List.pairwise_cons] at hsorted
      have ha : has w a = true := mem_bits.1 (by rw [hbits]; exact List.mem_cons_self)
      have hhead : a = lowest w := by
        rw [hbits, List.mem_cons] at hmem
        rcases hmem with hmem | hmem
        · exact hmem.symm
        · have hlt := hsorted.1 _ hmem
          rw [has_below_lowest h hlt] at ha
          exact absurd ha Bool.false_ne_true
      refine List.Pairwise.eq_of_mem_iff (pairwise_bits _) hsorted.2 fun i => ?_
      rw [mem_bits, has_dropLowest h, Bool.and_eq_true, ← mem_bits, hbits, decide_eq_true_eq,
        ← hhead, List.tail_cons, List.mem_cons]
      constructor
      · intro h
        exact h.1.resolve_left h.2
      · intro hi
        exact ⟨Or.inr hi, (hsorted.1 i hi).ne'⟩

theorem bits_dropHighest (w : UInt64) : bits (dropHighest w) = (bits w).dropLast := by
  by_cases h : w = 0
  · subst h
    decide
  · have hmem := mem_bits.2 (has_highest h)
    have hsorted := pairwise_bits w
    rcases List.eq_nil_or_concat (bits w) with hbits | ⟨front, a, hbits⟩
    · exact absurd (bits_eq_nil.1 hbits) h
    · rw [List.concat_eq_append] at hbits
      rw [hbits, List.pairwise_append] at hsorted
      have ha : has w a = true := mem_bits.1 (by rw [hbits]; simp)
      have hend : a = highest w := by
        rw [hbits, List.mem_append, List.mem_singleton] at hmem
        rcases hmem with hmem | hmem
        · have hlt := hsorted.2.2 _ hmem a (List.mem_singleton.2 rfl)
          rw [has_above_highest hlt] at ha
          exact absurd ha Bool.false_ne_true
        · exact hmem.symm
      rw [hbits, List.dropLast_concat]
      refine List.Pairwise.eq_of_mem_iff (pairwise_bits _) hsorted.1 fun i => ?_
      rw [mem_bits, has_dropHighest h, Bool.and_eq_true, ← mem_bits, hbits, decide_eq_true_eq,
        ← hend, List.mem_append, List.mem_singleton]
      constructor
      · intro h
        exact h.1.resolve_right h.2
      · intro hi
        exact ⟨Or.inl hi, (hsorted.2.2 i hi a (List.mem_singleton.2 rfl)).ne⟩

theorem bits_dropTimes_lowest (n : Nat) (w : UInt64) :
    bits (dropTimes dropLowest n w) = (bits w).drop n := by
  induction n generalizing w with
  | zero => rfl
  | succ n ih => rw [dropTimes, ih, bits_dropLowest, List.drop_tail]

theorem bits_dropTimes_highest (n : Nat) (w : UInt64) :
    bits (dropTimes dropHighest n w) = (bits w).take ((bits w).length - n) := by
  induction n generalizing w with
  | zero => simp [dropTimes]
  | succ n ih =>
    rw [dropTimes, ih, bits_dropHighest, List.length_dropLast, List.dropLast_eq_take,
      List.take_take]
    congr 1
    omega

end ChunkedSet.Word
