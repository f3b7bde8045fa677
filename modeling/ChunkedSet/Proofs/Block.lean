import Mathlib.Order.SymmDiff
import ChunkedSet.Proofs.Merge

/-!
# Blocks as sets

Every operation on a block changes the denoted set as it should, and the cached size with it.
-/

namespace ChunkedSet.Block

variable {a : SortedArray} {b c : Block} {S T : Finset Nat}

theorem insert_denotes (h : b.Denotes S) {p : Nat} (hp : p < chunkSize) :
    (b.insert p).1.Denotes (Insert.insert p S) ∧ (b.insert p).2 = decide (p ∉ S) := by
  rw [insert, h.contains]
  by_cases hmem : p ∈ S
  · rw [if_pos (by simpa using hmem), Finset.insert_eq_of_mem hmem]
    exact ⟨h, by simp [hmem]⟩
  · rw [if_neg (by simpa using hmem)]
    refine ⟨denotes_of_words ?_ (fun q hq => ?_) fun q _ => ?_, by simp [hmem]⟩
    · rw [Finset.card_insert_of_notMem hmem, h.size]
    · rcases Finset.mem_insert.1 hq with hq | hq
      · rwa [hq]
      · exact h.lt hq
    · rw [Words.contains_insert _ hp, h.contains]
      simp [Finset.mem_insert]

theorem erase_denotes (h : b.Denotes S) {p : Nat} (hp : p < chunkSize) :
    (b.erase p).1.Denotes (S.erase p) ∧ (b.erase p).2 = decide (p ∈ S) := by
  rw [erase, h.contains]
  by_cases hmem : p ∈ S
  · rw [if_pos (by simpa using hmem)]
    refine ⟨denotes_of_words ?_ (fun q hq => h.lt (Finset.mem_erase.1 hq).2) fun q _ => ?_,
      by simp [hmem]⟩
    · rw [Finset.card_erase_of_mem hmem, h.size]
    · rw [Words.contains_erase _ hp, h.contains]
      simp [Finset.mem_erase]
  · rw [if_neg (by simpa using hmem), Finset.erase_eq_of_notMem hmem]
    exact ⟨h, by simp [hmem]⟩

theorem append_denotes (h : b.Denotes S) {p : Nat} (hp : p < chunkSize) :
    (b.append p).Denotes (Insert.insert p S) :=
  (insert_denotes h hp).1

theorem toggle_denotes (h : b.Denotes S) {p : Nat} (hp : p < chunkSize) :
    (b.toggle p).Denotes (symmDiff S {p}) := by
  obtain ⟨hinsert, hflag⟩ := insert_denotes h hp
  rw [toggle]
  by_cases hmem : p ∈ S
  · have hset : symmDiff S {p} = S.erase p := by
      ext q
      simp only [Finset.mem_symmDiff, Finset.mem_singleton, Finset.mem_erase]
      by_cases hq : q = p
      · simp [hq, hmem]
      · simp [hq]
    have hpair : b.insert p = ((b.insert p).1, false) := Prod.ext rfl (by rw [hflag]; simp [hmem])
    rw [Finset.insert_eq_of_mem hmem] at hinsert
    rw [hpair, hset]
    exact (erase_denotes hinsert hp).1
  · have hset : symmDiff S {p} = Insert.insert p S := by
      ext q
      simp only [Finset.mem_symmDiff, Finset.mem_singleton, Finset.mem_insert]
      by_cases hq : q = p
      · simp [hq, hmem]
      · simp [hq]
    have hpair : b.insert p = ((b.insert p).1, true) := Prod.ext rfl (by rw [hflag]; simp [hmem])
    rw [hpair, hset]
    exact hinsert

/-! One position after the other. -/

theorem foldl_insert_denotes (h : b.Denotes S) {list : List Nat} (hlt : ∀ p ∈ list, p < chunkSize) :
    (list.foldl (fun b p => (b.insert p).1) b).Denotes (S ∪ list.toFinset) := by
  induction list generalizing b S with
  | nil => simpa using h
  | cons p rest ih =>
    have hstep := (insert_denotes h (hlt p List.mem_cons_self)).1
    have hrest := ih hstep fun q hq => hlt q (List.mem_cons_of_mem p hq)
    rw [List.foldl_cons, List.toFinset_cons]
    rwa [Finset.insert_union, ← Finset.union_insert] at hrest

theorem foldl_erase_denotes (h : b.Denotes S) {list : List Nat} (hlt : ∀ p ∈ list, p < chunkSize) :
    (list.foldl (fun b p => (b.erase p).1) b).Denotes (S \ list.toFinset) := by
  induction list generalizing b S with
  | nil => simpa using h
  | cons p rest ih =>
    have hstep := (erase_denotes h (hlt p List.mem_cons_self)).1
    have hrest := ih hstep fun q hq => hlt q (List.mem_cons_of_mem p hq)
    rw [List.foldl_cons, List.toFinset_cons]
    rwa [Finset.erase_sdiff_comm, ← Finset.sdiff_insert] at hrest

theorem foldl_toggle_denotes (h : b.Denotes S) {list : List Nat} (hlt : ∀ p ∈ list, p < chunkSize)
    (hnodup : list.Nodup) : (list.foldl toggle b).Denotes (symmDiff S list.toFinset) := by
  induction list generalizing b S with
  | nil =>
    rw [List.toFinset_nil, ← Finset.bot_eq_empty, symmDiff_bot]
    exact h
  | cons p rest ih =>
    have hcons := List.nodup_cons.1 hnodup
    have hstep := toggle_denotes h (hlt p List.mem_cons_self)
    have hrest := ih hstep (fun q hq => hlt q (List.mem_cons_of_mem p hq)) hcons.2
    have hset : symmDiff (symmDiff S {p}) rest.toFinset = symmDiff S (p :: rest).toFinset := by
      rw [symmDiff_assoc]
      congr 1
      ext q
      simp only [Finset.mem_symmDiff, Finset.mem_singleton, List.toFinset_cons, Finset.mem_insert,
        List.mem_toFinset]
      by_cases hq : q = p
      · simp [hq, hcons.1]
      · simp [hq]
    rw [List.foldl_cons]
    rwa [hset] at hrest

theorem insertAll_denotes (hb : b.Denotes S) (ha : a.Denotes T) :
    (b.insertAll a).Denotes (S ∪ T) := by
  rw [insertAll, ← Array.foldl_toList, ← ha.toFinset]
  exact foldl_insert_denotes hb ha.1.2

theorem eraseAll_denotes (hb : b.Denotes S) (ha : a.Denotes T) :
    (b.eraseAll a).Denotes (S \ T) := by
  rw [eraseAll, ← Array.foldl_toList, ← ha.toFinset]
  exact foldl_erase_denotes hb ha.1.2

theorem toggleAll_denotes (hb : b.Denotes S) (ha : a.Denotes T) :
    (b.toggleAll a).Denotes (symmDiff S T) := by
  rw [toggleAll, ← Array.foldl_toList, ← ha.toFinset]
  exact foldl_toggle_denotes hb ha.1.2 ha.1.1.nodup

theorem contains_foldl_insert {list : List Nat} (hlt : ∀ p ∈ list, p < chunkSize) (ws : Words)
    (q : Nat) : (list.foldl Words.insert ws).contains q = (ws.contains q || decide (q ∈ list)) := by
  induction list generalizing ws with
  | nil => simp
  | cons p rest ih =>
    rw [List.foldl_cons, ih fun q hq => hlt q (List.mem_cons_of_mem p hq),
      Words.contains_insert ws (hlt p List.mem_cons_self)]
    simp only [List.mem_cons, Bool.decide_or]
    rw [Bool.or_comm (decide (q = p)), Bool.or_assoc]

theorem ofSorted_denotes (h : a.Denotes S) : (ofSorted a).Denotes S := by
  refine denotes_of_words h.size (fun p hp => h.lt hp) fun p _ => ?_
  have hwords : (ofSorted a).words = a.toList.foldl Words.insert Words.empty :=
    (Array.foldl_toList _).symm
  rw [hwords, contains_foldl_insert h.1.2, Words.contains_empty, Bool.false_or, decide_eq_decide]
  exact h.mem_toList

theorem toSorted_denotes (h : b.Denotes S) : b.toSorted.Denotes S := by
  refine SortedArray.denotes_of_list (Words.pairwise_positions b.words) (fun p hp => h.lt hp)
    (fun p => ?_) rfl
  rw [Words.mem_positions, h.contains, decide_eq_true_eq]

/-! Ranges. -/

variable {lo hi : Nat}

theorem insertRange_denotes (h : b.Denotes S) (hhi : hi < chunkSize) :
    (b.insertRange lo hi).1.Denotes (S ∪ Finset.Icc lo hi) ∧
      (b.insertRange lo hi).2 = (Finset.Icc lo hi \ S).card := by
  have hadded : (b.insertRange lo hi).2 = (Finset.Icc lo hi \ S).card := by
    rw [← h.support, ← Words.sumRange_missing]
    rfl
  refine ⟨denotes_of_words ?_ (fun p hp => ?_) fun p hp => ?_, hadded⟩
  · have hsize : (b.insertRange lo hi).1.size = b.size + (b.insertRange lo hi).2 := rfl
    rw [hsize, hadded, h.size, ← Finset.union_sdiff_self_eq_union,
      Finset.card_union_of_disjoint Finset.disjoint_sdiff]
  · rcases Finset.mem_union.1 hp with hp | hp
    · exact h.lt hp
    · have hle := (Finset.mem_Icc.1 hp).2
      omega
  · have hwords : (b.insertRange lo hi).1.words = b.words.insertRange lo hi := rfl
    rw [hwords, Words.contains_insertRange _ _ _ hp, h.contains]
    simp [Finset.mem_union, Finset.mem_Icc]

theorem rangeSize_eq_card (h : b.Denotes S) (lo hi : Nat) :
    b.rangeSize lo hi = (S ∩ Finset.Icc lo hi).card := by
  rw [rangeSize, Words.rangeSize_eq_card, h.support, Finset.inter_comm]

theorem eraseRange_denotes (h : b.Denotes S) (lo hi : Nat) :
    (b.eraseRange lo hi).1.Denotes (S \ Finset.Icc lo hi) ∧
      (b.eraseRange lo hi).2 = (S ∩ Finset.Icc lo hi).card := by
  refine ⟨denotes_of_words ?_ (fun p hp => h.lt (Finset.mem_sdiff.1 hp).1) fun p hp => ?_,
    rangeSize_eq_card h lo hi⟩
  · have hsize : (b.eraseRange lo hi).1.size = b.size - b.rangeSize lo hi := rfl
    rw [hsize, rangeSize_eq_card h, h.size, Finset.card_sdiff, Finset.inter_comm]
  · have hwords : (b.eraseRange lo hi).1.words = b.words.eraseRange lo hi := rfl
    rw [hwords, Words.contains_eraseRange _ _ _ hp, h.contains, ← decide_not, ← Bool.decide_and,
      decide_eq_decide, Finset.mem_sdiff, Finset.mem_Icc]

theorem card_symmDiff (S T : Finset Nat) :
    (symmDiff S T).card = S.card - (S ∩ T).card + (T.card - (S ∩ T).card) := by
  have hdisjoint : Disjoint (S \ T) (T \ S) := disjoint_sdiff_sdiff
  rw [symmDiff, Finset.sup_eq_union, Finset.card_union_of_disjoint hdisjoint, Finset.card_sdiff,
    Finset.card_sdiff, Finset.inter_comm T]

theorem flipRange_denotes (h : b.Denotes S) (hhi : hi < chunkSize) :
    (b.flipRange lo hi).Denotes (symmDiff S (Finset.Icc lo hi)) := by
  refine denotes_of_words ?_ (fun p hp => ?_) fun p hp => ?_
  · have hsize : (b.flipRange lo hi).size = b.size - b.rangeSize lo hi +
        ((b.words.sumRange lo hi fun _ mask _ => mask) - b.rangeSize lo hi) := rfl
    rw [hsize, rangeSize_eq_card h, Words.sumRange_width, h.size, card_symmDiff]
  · rcases Finset.mem_symmDiff.1 hp with hp | hp
    · exact h.lt hp.1
    · have hle := (Finset.mem_Icc.1 hp.1).2
      omega
  · have hwords : (b.flipRange lo hi).words = b.words.flipRange lo hi := rfl
    rw [hwords, Words.contains_flipRange _ _ _ hp, h.contains, Bool.eq_iff_iff]
    rw [decide_eq_true_eq, Finset.mem_symmDiff, Finset.mem_Icc]
    by_cases hpS : p ∈ S <;> by_cases hr : lo ≤ p ∧ p ≤ hi <;> simp only [hpS, hr] <;> decide

/-! Two blocks. -/

theorem zipWith_denotes {f : UInt64 → UInt64 → UInt64} {g : Bool → Bool → Bool}
    (hf : ∀ v w i, i < 64 → Word.has (f v w) i = g (Word.has v i) (Word.has w i))
    (hg : g false false = false) (hb : b.Denotes S) (hc : c.Denotes T) {U : Finset Nat}
    (hU : ∀ p, g (decide (p ∈ S)) (decide (p ∈ T)) = decide (p ∈ U)) :
    (zipWith f b c).Denotes U := by
  have hsupport : Words.support (Vector.zipWith f b.words c.words) = U := by
    ext p
    rw [Words.mem_support, Words.contains_zipWith hf hg, hb.contains, hc.contains, hU,
      decide_eq_true_eq]
  rw [← hsupport]
  exact ofWords_denotes _

theorem union_denotes (hb : b.Denotes S) (hc : c.Denotes T) : (b.union c).Denotes (S ∪ T) :=
  zipWith_denotes (g := (· || ·)) (fun v w i _ => Word.has_or v w i) rfl hb hc fun p => by simp

theorem intersection_denotes (hb : b.Denotes S) (hc : c.Denotes T) :
    (b.intersection c).Denotes (S ∩ T) :=
  zipWith_denotes (g := (· && ·)) (fun v w i _ => Word.has_and v w i) rfl hb hc fun p => by simp

theorem difference_denotes (hb : b.Denotes S) (hc : c.Denotes T) :
    (b.difference c).Denotes (S \ T) :=
  zipWith_denotes (g := fun x y => x && !y) (fun v w i _ => Word.has_and_not v w i) rfl hb hc
    fun p => by simp

theorem symmetricDifference_denotes (hb : b.Denotes S) (hc : c.Denotes T) :
    (b.symmetricDifference c).Denotes (symmDiff S T) :=
  zipWith_denotes (g := (· ^^ ·)) (fun v w i _ => Word.has_xor v w i) rfl hb hc fun p => by
    rw [Bool.eq_iff_iff]
    by_cases hS : p ∈ S <;> by_cases hT : p ∈ T <;> simp [hS, hT, Finset.mem_symmDiff]

theorem orNot_denotes (hb : b.Denotes S) (hc : c.Denotes T) {last : Nat} (hlast : last < chunkSize) :
    (b.orNot c last).Denotes (S ∪ Finset.Icc 0 last \ T) := by
  have hsupport : (b.words.updateRange 0 last fun k mask w =>
      w ||| (~~~(c.words.word k) &&& mask)).support = S ∪ Finset.Icc 0 last \ T := by
    ext p
    rw [Words.mem_support, Finset.mem_union, Finset.mem_sdiff, Finset.mem_Icc]
    by_cases hp : p < chunkSize
    · rw [Words.contains_updateRange _ _ _ _ hp]
      split
      · rename_i hrange
        have hmod : p % 64 < 64 := Nat.mod_lt p (by decide)
        rw [Word.has_or, Word.has_and, Word.has_not _ hmod, Words.has_rangeMask hrange.1 hrange.2 hmod,
          Nat.div_add_mod, ← Words.contains_eq_has, ← Words.contains_eq_has, hb.contains, hc.contains]
        simp only [Bool.or_eq_true, Bool.and_eq_true, decide_eq_true_eq, Bool.not_eq_true',
          decide_eq_false_iff_not]
        tauto
      · rw [hb.contains, decide_eq_true_eq]
        refine ⟨Or.inl, fun h => ?_⟩
        rcases h with h | h
        · exact h
        · omega
    · constructor
      · intro hbit
        exact absurd (Words.lt_of_contains hbit) hp
      · intro h
        rcases h with h | h
        · exact absurd (hb.lt h) hp
        · omega
  rw [← hsupport]
  exact ofWords_denotes _

/-! Searches and trims. -/

theorem max?_greatest (h : b.Denotes S) : Greatest (· ∈ S) b.max? := by
  refine Words.lastBetween_greatest.congr fun p => ?_
  rw [h.contains, decide_eq_true_eq]
  exact ⟨fun hp => hp.2.2, fun hp => ⟨Nat.zero_le p, h.lt hp, hp⟩⟩

theorem next?_least (h : b.Denotes S) (p : Nat) : Least (fun q => p ≤ q ∧ q ∈ S) (b.next? p) := by
  refine (Words.firstBetween_least (Nat.le_refl chunkSize)).congr fun q => ?_
  rw [h.contains, decide_eq_true_eq]
  exact ⟨fun hq => ⟨hq.1, hq.2.2⟩, fun hq => ⟨hq.1, h.lt hq.2, hq.2⟩⟩

theorem trim_denotes (h : b.Denotes S) {ws : Words} {list : List Nat}
    (hsub : list.Sublist (S.sort (· ≤ ·))) (hpos : ws.positions.toList = list) {size : Nat}
    (hsize : size = list.length) : Denotes ⟨size, ws⟩ list.toFinset := by
  refine denotes_of_words ?_ (fun p hp => ?_) fun p _ => ?_
  · rw [List.toFinset_card_of_nodup (List.Nodup.sublist hsub (S.sort_nodup _)), hsize]
  · rw [List.mem_toFinset] at hp
    exact h.lt ((Finset.mem_sort _).1 (hsub.mem hp))
  · rw [Bool.eq_iff_iff, decide_eq_true_eq, List.mem_toFinset, ← hpos, Words.mem_positions]

theorem dropSmallest_denotes (h : b.Denotes S) (n : Nat) :
    (b.dropSmallest n).Denotes ((S.sort (· ≤ ·)).drop n).toFinset := by
  have hlen : (S.sort (· ≤ ·)).length = b.size := by rw [Finset.length_sort, h.size]
  rw [dropSmallest]
  split
  · rename_i hle
    have hnil : (S.sort (· ≤ ·)).drop n = [] := List.drop_eq_nil_of_le (by omega)
    rw [hnil]
    exact empty_denotes
  · refine trim_denotes h (List.drop_sublist n _) ?_ ?_
    · rw [Words.positions_dropSmallest, ← h.positions_eq_sort]
      rfl
    · rw [List.length_drop, hlen]

theorem dropBiggest_denotes (h : b.Denotes S) (n : Nat) :
    (b.dropBiggest n).Denotes ((S.sort (· ≤ ·)).take (S.card - n)).toFinset := by
  have hlen : (S.sort (· ≤ ·)).length = b.size := by rw [Finset.length_sort, h.size]
  rw [dropBiggest]
  split
  · rename_i hle
    have hzero : S.card - n = 0 := by rw [← h.size]; omega
    rw [hzero]
    exact empty_denotes
  · refine trim_denotes h (List.take_sublist _ _) ?_ ?_
    · rw [Words.positions_dropBiggest, ← h.positions_eq_sort, ← h.size]
      have hvalid : b.size = b.words.popcount := h.1
      rw [Words.size_positions, hvalid]
      rfl
    · rw [List.length_take, hlen, ← h.size]
      omega

end ChunkedSet.Block
