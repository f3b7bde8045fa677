import ChunkedSet.Proofs.Extremes
import ChunkedSet.Proofs.Words

/-!
# Scans of a block of words

Scans for the next set or clear position, the count of runs with a carry from word to word, and
the clearing of set bits from either end.
-/

namespace ChunkedSet.Words

open Word

/-! What a scan has before it: the bits left of one word, and all words past that one. -/

def Ahead (A : Nat → Prop) (k : Nat) (w : UInt64) (q : Nat) : Prop :=
  q / 64 = k ∧ has w (q % 64) = true ∨ k < q / 64 ∧ A q

def Behind (A : Nat → Prop) (k : Nat) (w : UInt64) (q : Nat) : Prop :=
  q / 64 = k ∧ has w (q % 64) = true ∨ q / 64 < k ∧ A q

section

variable {A : Nat → Prop} {k q : Nat} {v w : UInt64}

theorem ahead_lowest (hw : w ≠ 0) : Ahead A k w (k * 64 + lowest w) := by
  have hlow := lowest_lt hw
  have hmod : (k * 64 + lowest w) % 64 = lowest w := by omega
  refine Or.inl ⟨by omega, ?_⟩
  rw [hmod]
  exact has_lowest hw

theorem behind_highest (hw : w ≠ 0) : Behind A k w (k * 64 + highest w) := by
  have hhigh := highest_lt hw
  have hmod : (k * 64 + highest w) % 64 = highest w := by omega
  refine Or.inl ⟨by omega, ?_⟩
  rw [hmod]
  exact has_highest hw

theorem Ahead.lowest_le (hw : w ≠ 0) (h : Ahead A k w q) : k * 64 + lowest w ≤ q := by
  have hlow := lowest_lt hw
  rcases h with ⟨hk, hbit⟩ | ⟨hk, -⟩
  · by_contra hlt
    rw [has_below_lowest hw (by omega)] at hbit
    exact Bool.false_ne_true hbit
  · omega

theorem Behind.le_highest (h : Behind A k w q) : q ≤ k * 64 + highest w := by
  rcases h with ⟨hk, hbit⟩ | ⟨hk, -⟩
  · by_contra hlt
    rw [has_above_highest (by omega)] at hbit
    exact Bool.false_ne_true hbit
  · omega

theorem least_ahead {stop : Nat} (hw : w ≠ 0) : Least (fun q => q < stop ∧ Ahead A k w q)
    (if k * 64 + lowest w < stop then some (k * 64 + lowest w) else none) := by
  split
  · rename_i hstop
    exact ⟨⟨hstop, ahead_lowest hw⟩, fun q hq => hq.2.lowest_le hw⟩
  · rename_i hstop
    intro q hq
    exact hstop (Nat.lt_of_le_of_lt (hq.2.lowest_le hw) hq.1)

theorem greatest_behind {start : Nat} (hw : w ≠ 0) : Greatest (fun q => start ≤ q ∧ Behind A k w q)
    (if start ≤ k * 64 + highest w then some (k * 64 + highest w) else none) := by
  split
  · rename_i hstart
    exact ⟨⟨hstart, behind_highest hw⟩, fun q hq => hq.2.le_highest⟩
  · rename_i hstart
    intro q hq
    exact hstart (Nat.le_trans hq.1 hq.2.le_highest)

theorem ahead_zero : Ahead A k 0 q ↔ k < q / 64 ∧ A q := by
  simp [Ahead]

theorem behind_zero : Behind A k 0 q ↔ q / 64 < k ∧ A q := by
  simp [Behind]

theorem ahead_succ (hnext : q / 64 = k + 1 → (has v (q % 64) = true ↔ A q)) :
    Ahead A (k + 1) v q ↔ Ahead A k 0 q := by
  rw [ahead_zero]
  constructor
  · intro h
    rcases h with ⟨hk, hbit⟩ | ⟨hk, hA⟩
    · exact ⟨by omega, (hnext hk).1 hbit⟩
    · exact ⟨by omega, hA⟩
  · intro h
    by_cases hk : q / 64 = k + 1
    · exact Or.inl ⟨hk, (hnext hk).2 h.2⟩
    · exact Or.inr ⟨by omega, h.2⟩

theorem behind_succ (hnext : q / 64 = k → (has v (q % 64) = true ↔ A q)) :
    Behind A k v q ↔ Behind A (k + 1) 0 q := by
  rw [behind_zero]
  constructor
  · intro h
    rcases h with ⟨hk, hbit⟩ | ⟨hk, hA⟩
    · exact ⟨by omega, (hnext hk).1 hbit⟩
    · exact ⟨by omega, hA⟩
  · intro h
    by_cases hk : q / 64 = k
    · exact Or.inl ⟨hk, (hnext hk).2 h.2⟩
    · exact Or.inr ⟨by omega, h.2⟩

theorem ahead_upward {start : Nat}
    (hword : q / 64 = start / 64 → (has w (q % 64) = true ↔ A q)) :
    Ahead A (start / 64) (w &&& upward (start % 64)) q ↔ start ≤ q ∧ A q := by
  rw [Ahead, has_and, has_upward _ (Nat.mod_lt start (by decide))]
  simp only [Bool.and_eq_true, decide_eq_true_eq]
  constructor
  · intro h
    rcases h with ⟨hk, hbit, -, hle⟩ | ⟨hk, hA⟩
    · exact ⟨by omega, (hword hk).1 hbit⟩
    · exact ⟨by omega, hA⟩
  · intro h
    by_cases hk : q / 64 = start / 64
    · exact Or.inl ⟨hk, (hword hk).2 h.2, by omega, by omega⟩
    · exact Or.inr ⟨by omega, h.2⟩

theorem behind_downward {last : Nat}
    (hword : q / 64 = last / 64 → (has w (q % 64) = true ↔ A q)) :
    Behind A (last / 64) (w &&& downward (last % 64)) q ↔ q ≤ last ∧ A q := by
  rw [Behind, has_and, has_downward _ (Nat.mod_lt last (by decide))]
  simp only [Bool.and_eq_true, decide_eq_true_eq]
  constructor
  · intro h
    rcases h with ⟨hk, hbit, hle⟩ | ⟨hk, hA⟩
    · exact ⟨by omega, (hword hk).1 hbit⟩
    · exact ⟨by omega, hA⟩
  · intro h
    by_cases hk : q / 64 = last / 64
    · exact Or.inl ⟨hk, (hword hk).2 h.2, by omega⟩
    · exact Or.inr ⟨by omega, h.2⟩

end

section

variable {ws : Words} {k p q start stop : Nat} {w : UInt64}

theorem has_word_iff (hk : q / 64 = k) :
    has (ws.word k) (q % 64) = true ↔ ws.contains q = true := by
  rw [contains_eq_has, hk]

theorem has_not_word_iff (hk : q / 64 = k) :
    has (~~~(ws.word k)) (q % 64) = true ↔ ws.contains q = false := by
  rw [has_not _ (Nat.mod_lt q (by decide)), contains_eq_has, hk, Bool.not_eq_true']

theorem firstIn_least {fuel : Nat} (hfuel : stop ≤ 64 * k + 64 * fuel + 64) :
    Least (fun q => q < stop ∧ Ahead (ws.contains · = true) k w q)
      (firstIn ws stop fuel k w) := by
  induction fuel generalizing k w with
  | zero =>
    rw [firstIn]
    split
    · rename_i hw
      exact least_ahead hw
    · rename_i hw
      rw [not_not.1 hw]
      intro q hq
      have hahead := ahead_zero.1 hq.2
      omega
  | succ fuel ih =>
    rw [firstIn]
    split
    · rename_i hw
      exact least_ahead hw
    · rename_i hw
      rw [not_not.1 hw]
      split
      · intro q hq
        have hahead := ahead_zero.1 hq.2
        omega
      · exact (ih (by omega)).congr fun q => and_congr_right fun _ => ahead_succ has_word_iff

theorem firstBetween_least (hstop : stop ≤ chunkSize) :
    Least (fun q => start ≤ q ∧ q < stop ∧ ws.contains q = true)
      (ws.firstBetween start stop) := by
  rw [firstBetween]
  split
  · have hfuel : stop ≤ 64 * (start / 64) + 64 * 1024 + 64 := by
      unfold chunkSize at hstop
      omega
    refine (firstIn_least hfuel).congr fun q => ?_
    rw [ahead_upward has_word_iff]
    exact and_left_comm
  · intro q hq
    omega

theorem lastIn_greatest :
    Greatest (fun q => start ≤ q ∧ Behind (ws.contains · = true) k w q) (lastIn ws start k w) := by
  induction k generalizing w with
  | zero =>
    rw [lastIn]
    split
    · rename_i hw
      exact greatest_behind hw
    · rename_i hw
      rw [not_not.1 hw]
      intro q hq
      have hbehind := behind_zero.1 hq.2
      omega
  | succ k ih =>
    rw [lastIn]
    split
    · rename_i hw
      exact greatest_behind hw
    · rename_i hw
      rw [not_not.1 hw]
      split
      · intro q hq
        have hbehind := behind_zero.1 hq.2
        omega
      · exact ih.congr fun q => and_congr_right fun _ => behind_succ has_word_iff

theorem lastBetween_greatest :
    Greatest (fun q => start ≤ q ∧ q < stop ∧ ws.contains q = true)
      (ws.lastBetween start stop) := by
  rw [lastBetween]
  split
  · refine lastIn_greatest.congr fun q => ?_
    rw [behind_downward has_word_iff, Nat.le_sub_one_iff_lt (by omega)]
  · intro q hq
    omega

theorem least_clear (hk : k < 1024) (hw : w ≠ 0) :
    Least (fun q => q < chunkSize ∧ Ahead (ws.contains · = false) k w q)
      (some (k * 64 + lowest w)) := by
  have hlow := lowest_lt hw
  have hlt : k * 64 + lowest w < chunkSize := by
    unfold chunkSize
    omega
  have hleast : Least (fun q => q < chunkSize ∧ Ahead (ws.contains · = false) k w q) _ :=
    least_ahead hw
  rwa [if_pos hlt] at hleast

theorem least_clear_none (hk : ¬k + 1 < 1024) :
    Least (fun q => q < chunkSize ∧ Ahead (ws.contains · = false) k 0 q) none := by
  intro q hq
  have hlt := hq.1
  have hahead := ahead_zero.1 hq.2
  unfold chunkSize at hlt
  omega

theorem firstClearIn_least {fuel : Nat} (hk : k < 1024) (hfuel : 1024 ≤ k + fuel + 1) :
    Least (fun q => q < chunkSize ∧ Ahead (ws.contains · = false) k w q)
      (firstClearIn ws fuel k w) := by
  induction fuel generalizing k w with
  | zero =>
    rw [firstClearIn]
    split
    · rename_i hw
      exact least_clear hk hw
    · rename_i hw
      rw [not_not.1 hw]
      exact least_clear_none (by omega)
  | succ fuel ih =>
    rw [firstClearIn]
    split
    · rename_i hw
      exact least_clear hk hw
    · rename_i hw
      rw [not_not.1 hw]
      split
      · rename_i hnext
        exact (ih hnext (by omega)).congr fun q =>
          and_congr_right fun _ => ahead_succ has_not_word_iff
      · rename_i hlast
        exact least_clear_none hlast

theorem nextClear?_least (hp : p < chunkSize) :
    Least (fun q => p ≤ q ∧ q < chunkSize ∧ ws.contains q = false) (ws.nextClear? p) := by
  have hk : p / 64 < 1024 := by
    unfold chunkSize at hp
    omega
  refine (firstClearIn_least hk (by omega)).congr fun q => ?_
  rw [ahead_upward has_not_word_iff]
  exact and_left_comm

end

/-! Runs. -/

def isStart (ws : Words) (p : Nat) : Bool :=
  ws.contains p && !(decide (0 < p) && ws.contains (p - 1))

theorem has_startBits {ws : Words} {k i : Nat} {carry : UInt64} (hi : i < 64)
    (hcarry : ∀ j, has carry j = (decide (j = 0 ∧ 0 < k) && ws.contains (64 * k - 1))) :
    has (ws.word k &&& ~~~((ws.word k <<< 1) ||| carry)) i = ws.isStart (64 * k + i) := by
  have hshift : has (ws.word k <<< 1) i = (decide (1 ≤ i) && has (ws.word k) (i - 1)) := by
    have h := has_shiftLeft (ws.word k) i (show 1 < 64 by decide)
    rw [decide_eq_true hi, Bool.true_and] at h
    exact h
  rw [has_and_not, has_or, hshift, hcarry, has_word ws k hi, has_word ws k (by omega), isStart]
  congr 2
  rcases Nat.eq_zero_or_pos i with rfl | hpos
  · rcases Nat.eq_zero_or_pos k with rfl | hk
    · simp
    · have hpos : 0 < 64 * k := by omega
      simp [hk]
  · have hprev : 64 * k + (i - 1) = 64 * k + i - 1 := by omega
    have hne : ¬(i = 0 ∧ 0 < k) := by omega
    have hone : 1 ≤ i := hpos
    have hsum : 0 < 64 * k + i := by omega
    rw [hprev, decide_eq_true hone, decide_eq_false hne, decide_eq_true hsum]
    simp

theorem runsIn_eq_sum (ws : Words) (n : Nat) :
    ∀ (a : Nat) (carry : UInt64) (runs : Nat),
      (∀ j, has carry j = (decide (j = 0 ∧ 0 < a) && ws.contains (64 * a - 1))) →
      runsIn ((List.range' a n).map ws.word) carry runs = runs +
        ((List.range' a n).map fun k => Nat.count (fun i => ws.isStart (64 * k + i) = true) 64).sum := by
  induction n with
  | zero =>
    intro a carry runs _
    rfl
  | succ n ih =>
    intro a carry runs hcarry
    have hnext : ∀ j, has (ws.word a >>> 63) j =
        (decide (j = 0 ∧ 0 < a + 1) && ws.contains (64 * (a + 1) - 1)) := fun j => by
      have h := has_shiftRight (ws.word a) j (show 63 < 64 by decide)
      refine h.trans ?_
      rcases Nat.eq_zero_or_pos j with rfl | hj
      · rw [has_word ws a (by decide), show 64 * a + (63 + 0) = 64 * (a + 1) - 1 by omega]
        simp
      · rw [has_ge (by omega), decide_eq_false (by omega), Bool.false_and]
    have hcount : Word.popcount (ws.word a &&& ~~~((ws.word a <<< 1) ||| carry)) =
        Nat.count (fun i => ws.isStart (64 * a + i) = true) 64 := by
      rw [popcount_eq_count]
      exact count_congr fun i hi => has_startBits hi hcarry
    rw [List.range'_succ, List.map_cons, runsIn, ih _ _ _ hnext, hcount, List.map_cons,
      List.sum_cons, Nat.add_assoc]

theorem runCount_eq_card (ws : Words) : ws.runCount = (starts ws.support).card := by
  have hsum := count_add_sum ws.isStart 0 1024
  rw [Nat.mul_zero, Nat.count_zero, Nat.zero_add] at hsum
  rw [runCount, toList_eq_map_word, runsIn_eq_sum ws 1024 0 0 0 (by simp), Nat.zero_add, hsum,
    Nat.count_eq_card_filter_range]
  refine congrArg Finset.card (Finset.ext fun p => ?_)
  rw [Finset.mem_filter, Finset.mem_range, mem_starts, mem_support, mem_support]
  have hlt : ws.contains p = true → p < chunkSize := lt_of_contains
  unfold chunkSize at hlt
  rw [isStart]
  rcases Nat.eq_zero_or_pos p with rfl | hpos
  · simp
  · have hne : ¬p = 0 := by omega
    simp only [hpos, hne, decide_true, Bool.true_and, Bool.and_eq_true, Bool.not_eq_true',
      Bool.not_eq_true, false_or]
    exact ⟨fun h => h.2, fun h => ⟨hlt h.1, h⟩⟩

/-! Clearing bits from either end. -/

theorem toList_ofList {list : List UInt64} (h : list.length = 1024) :
    (ofList list).toList = list := by
  refine List.ext_getElem (by simp [h]) fun k hk hk' => ?_
  simp [ofList, hk']

theorem ofList_toList (ws : Words) : ofList ws.toList = ws :=
  Vector.toList_inj.1 (toList_ofList Vector.length_toList)

theorem length_dropIn (drop : UInt64 → UInt64) (list : List UInt64) (n : Nat) :
    (dropIn drop list n).length = list.length := by
  induction list generalizing n with
  | nil => rfl
  | cons w rest ih =>
    rw [dropIn]
    split
    · rfl
    · rw [List.length_cons, ih, List.length_cons]

theorem bitsFrom_dropIn (list : List UInt64) (n p : Nat) :
    bitsFrom (dropIn dropLowest list n) p = (bitsFrom list p).drop n := by
  induction list generalizing n p with
  | nil => simp [dropIn, bitsFrom]
  | cons w rest ih =>
    have hlen : ((bits w).map (p + ·)).length = Word.popcount w := by rw [List.length_map, length_bits]
    rw [dropIn]
    split
    · rename_i hlt
      rw [bitsFrom, bitsFrom, bits_dropTimes_lowest, List.map_drop,
        List.drop_append_of_le_length (by omega)]
    · rename_i hge
      have hzero : bits 0 = [] := bits_eq_nil.2 rfl
      have hdrop : ((bits w).map (p + ·)).drop n = [] := List.drop_eq_nil_of_le (by omega)
      rw [bitsFrom, bitsFrom, hzero, ih, List.map_nil, List.nil_append, List.drop_append, hdrop,
        List.nil_append, hlen]

theorem bitsFrom_append (list : List UInt64) (w : UInt64) (p : Nat) :
    bitsFrom (list ++ [w]) p = bitsFrom list p ++ (bits w).map (p + 64 * list.length + ·) := by
  induction list generalizing p with
  | nil => simp [bitsFrom]
  | cons v rest ih =>
    have hpos : p + 64 + 64 * rest.length = p + 64 * (rest.length + 1) := by omega
    rw [List.cons_append, bitsFrom, bitsFrom, ih, List.append_assoc, List.length_cons, hpos]

theorem bitsFrom_dropIn_reverse (list : List UInt64) (n p : Nat) :
    bitsFrom (dropIn dropHighest list.reverse n).reverse p =
      (bitsFrom list p).take ((bitsFrom list p).length - n) := by
  induction list using List.reverseRecOn generalizing n with
  | nil => simp [dropIn, bitsFrom]
  | append_singleton front w ih =>
    have hlen : ((bits w).map (p + 64 * front.length + ·)).length = Word.popcount w := by
      rw [List.length_map, length_bits]
    rw [List.reverse_append, List.reverse_singleton, List.singleton_append, dropIn,
      bitsFrom_append, List.length_append, hlen]
    split
    · rename_i hlt
      have hsum : (bitsFrom front p).length + Word.popcount w - n =
          (bitsFrom front p).length + (Word.popcount w - n) := by omega
      rw [List.reverse_cons, List.reverse_reverse, bitsFrom_append, bits_dropTimes_highest,
        List.map_take, length_bits, hsum, List.take_length_add_append]
    · rename_i hge
      have hzero : bits 0 = [] := bits_eq_nil.2 rfl
      have hsum : (bitsFrom front p).length + Word.popcount w - n =
          (bitsFrom front p).length - (n - Word.popcount w) := by omega
      rw [List.reverse_cons, bitsFrom_append, hzero, List.map_nil, List.append_nil, ih, hsum,
        List.take_append_of_le_length (by omega)]

theorem positions_dropSmallest (ws : Words) (n : Nat) :
    (ws.dropSmallest n).positions.toList = ws.positions.toList.drop n := by
  have hlen : (dropIn dropLowest ws.toList n).length = 1024 := by
    rw [length_dropIn, Vector.length_toList]
  rw [positions_eq_bitsFrom, positions_eq_bitsFrom, dropSmallest, toList_ofList hlen,
    bitsFrom_dropIn]

theorem positions_dropBiggest (ws : Words) (n : Nat) :
    (ws.dropBiggest n).positions.toList =
      ws.positions.toList.take (ws.positions.size - n) := by
  have hlen : (dropIn dropHighest ws.toList.reverse n).reverse.length = 1024 := by
    rw [List.length_reverse, length_dropIn, List.length_reverse, Vector.length_toList]
  rw [← Array.length_toList, positions_eq_bitsFrom, positions_eq_bitsFrom, dropBiggest,
    toList_ofList hlen, bitsFrom_dropIn_reverse]

end ChunkedSet.Words
