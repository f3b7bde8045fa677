import Mathlib.Data.Nat.PSub
import ChunkedSet.Proofs.ChunkAlgebra
import ChunkedSet.Proofs.ChunkCompare

/-!
# Changes of a block

A block is changed by masks on its words, by other blocks, by lists of runs and by sorted arrays.
Every change sets the bits that it should and no others, and the cached size stays the number of
set bits. The size is adjusted on the way by subtractions, none of which goes below zero.
-/

namespace ChunkedSet

open Finset

/-- Where an invariant lets no step fail, a loop of checked steps is the loop of plain ones. -/
theorem foldlM_eq_some {α β : Type} {step? : β → α → Option β} {step : β → α → β} {Inv : β → Prop}
    {list : List α}
    (hstep : ∀ b, Inv b → ∀ x ∈ list, step? b x = some (step b x) ∧ Inv (step b x)) {b : β}
    (hb : Inv b) : list.foldlM step? b = some (list.foldl step b) ∧ Inv (list.foldl step b) := by
  induction list generalizing b with
  | nil => exact ⟨rfl, hb⟩
  | cons x rest ih =>
    obtain ⟨hx, hinv⟩ := hstep b hb x List.mem_cons_self
    rw [List.foldlM_cons, hx, List.foldl_cons]
    exact ih (fun b hb y hy => hstep b hb y (List.mem_cons_of_mem x hy)) hinv

variable {S T : Finset Nat} {lo hi k p : Nat} {mask : UInt64}

namespace Words

/-- The positions of the bits of a word, as word `k` of a block. -/
def spread (k : Nat) (w : UInt64) : Finset Nat :=
  {i ∈ range 64 | Word.has w i = true}.map (addLeftEmbedding (64 * k))

theorem card_spread (k : Nat) (w : UInt64) : #(spread k w) = Word.popcount w := by
  rw [spread, card_map, Word.popcount_eq_count, Nat.count_eq_card_filter_range]

theorem mem_spread {w : UInt64} : p ∈ spread k w ↔ p / 64 = k ∧ Word.has w (p % 64) = true := by
  simp only [spread, mem_map, mem_filter, mem_range, addLeftEmbedding_apply]
  constructor
  · intro h
    obtain ⟨i, ⟨hi, hbit⟩, rfl⟩ := h
    have hword : (64 * k + i) / 64 = k ∧ (64 * k + i) % 64 = i := by omega
    rwa [hword.1, hword.2, and_iff_right rfl]
  · intro h
    obtain ⟨rfl, hbit⟩ := h
    exact ⟨p % 64, ⟨Nat.mod_lt p (by decide), hbit⟩, Nat.div_add_mod p 64⟩

theorem spread_and_word (ws : Words) (k : Nat) (mask : UInt64) :
    spread k (mask &&& ws.word k) = ws.support ∩ spread k mask := by
  ext p
  rw [mem_inter, mem_spread, mem_spread, mem_support, contains_eq_has, Word.has_and,
    Bool.and_eq_true]
  constructor
  · intro h
    obtain ⟨rfl, hmask, hword⟩ := h
    exact ⟨hword, rfl, hmask⟩
  · intro h
    obtain ⟨hword, rfl, hmask⟩ := h
    exact ⟨rfl, hmask, hword⟩

theorem support_flipWord (ws : Words) (hk : k < 1024) (mask : UInt64) :
    (ws.update k (· ^^^ mask)).support = symmDiff ws.support (spread k mask) := by
  ext p
  rw [mem_support, contains_eq_has, word_update, mem_symmDiff, mem_support, mem_spread,
    contains_eq_has]
  by_cases hword : p / 64 = k
  · rw [if_pos ⟨hword, hk⟩, Word.has_xor, hword]
    cases Word.has (ws.word k) (p % 64) <;> cases Word.has mask (p % 64) <;> simp
  · rw [if_neg fun h => hword h.1]
    simp [hword]

theorem lt_of_mem_rangeMasks {km : Nat × UInt64} (hhi : hi < chunkSize)
    (h : km ∈ rangeMasks lo hi) : km.1 < 1024 := by
  obtain ⟨k, hk, rfl⟩ := List.mem_map.1 h
  rw [List.mem_range'_1] at hk
  unfold chunkSize at hhi
  omega

end Words

namespace Block

variable {b c : Block} {a : SortedArray}

/-! The changes that subtract, with every subtraction checked. -/

def erase? (b : Block) (p : Nat) : Option (Block × Bool) :=
  if b.words.contains p then do
    let size ← b.size.psub 1
    return (⟨size, b.words.erase p⟩, true)
  else some (b, false)

def toggle? (b : Block) (p : Nat) : Option Block :=
  match b.insert p with
  | (b, true) => some b
  | (b, false) => (·.1) <$> b.erase? p

def eraseRange? (b : Block) (lo hi : Nat) : Option (Block × Nat) := do
  let removed := b.words.rangeSize lo hi
  let size ← b.size.psub removed
  return (⟨size, b.words.eraseRange lo hi⟩, removed)

def flipWord? (b : Block) (k : Nat) (mask : UInt64) : Option Block := do
  let before := Word.popcount (mask &&& b.words.word k)
  let kept ← b.size.psub before
  let gained ← (Word.popcount mask).psub before
  return ⟨kept + gained, b.words.update k (· ^^^ mask)⟩

def flipRange? (b : Block) (lo hi : Nat) : Option Block :=
  (Words.rangeMasks lo hi).foldlM (fun b km => b.flipWord? km.1 km.2) b

def retainFrom? : List Run → Nat → Block → Option Block
  | [], next, b => if next < chunkSize then (·.1) <$> b.eraseRange? next lastPosition else some b
  | r :: rest, next, b => do
    let b ← if next < r.first then (·.1) <$> b.eraseRange? next (r.first - 1) else some b
    retainFrom? rest (r.last + 1) b

def eraseAll? (b : Block) (a : SortedArray) : Option Block :=
  a.toList.foldlM (fun b p => (·.1) <$> b.erase? p) b

def toggleAll? (b : Block) (a : SortedArray) : Option Block := a.toList.foldlM toggle? b

/-! None of the checks fails on a block whose cached size is right. -/

theorem Valid.eq_of_words (hb : b.Valid) (hc : c.Valid) (h : b.words = c.words) : b = c := by
  have hden := hb.denotes
  rw [h] at hden
  exact hden.eq hc.denotes

theorem erase?_eq (hb : b.Valid) (p : Nat) : b.erase? p = some (b.erase p) := by
  rw [erase?, erase]
  split
  · rename_i hbit
    have hpos : 1 ≤ b.size := by
      rw [hb.denotes.size]
      exact card_pos.2 ⟨p, Words.mem_support.2 hbit⟩
    rw [Nat.psub_eq_sub hpos]
    rfl
  · rfl

theorem toggle?_eq (hb : b.Valid) (hp : p < chunkSize) : b.toggle? p = some (b.toggle p) := by
  have hinsert := (insert_denotes hb.denotes hp).1.1
  rw [toggle?, toggle]
  cases hpair : b.insert p with
  | mk c added =>
    rw [hpair] at hinsert
    cases added with
    | true => rfl
    | false =>
      dsimp only
      rw [erase?_eq hinsert]
      rfl

theorem eraseRange?_eq (hb : b.Valid) (lo hi : Nat) :
    b.eraseRange? lo hi = some (b.eraseRange lo hi) := by
  have hle : b.words.rangeSize lo hi ≤ b.size := by
    rw [Words.rangeSize_eq_card, hb.denotes.size]
    exact card_le_card inter_subset_right
  rw [eraseRange?, Nat.psub_eq_sub hle]
  rfl

theorem Valid.eraseRange (hb : b.Valid) (lo hi : Nat) : (b.eraseRange lo hi).1.Valid :=
  (eraseRange_denotes hb.denotes lo hi).1.1

theorem retainFrom?_eq (hb : b.Valid) (runs : List Run) (next : Nat) :
    retainFrom? runs next b = some (retainFrom runs next b) := by
  induction runs generalizing next b with
  | nil =>
    rw [retainFrom?, retainFrom]
    split
    · rw [eraseRange?_eq hb]
      rfl
    · rfl
  | cons r rest ih =>
    rw [retainFrom?, retainFrom]
    split
    · rw [eraseRange?_eq hb]
      exact ih (hb.eraseRange next (r.first - 1)) (r.last + 1)
    · exact ih hb (r.last + 1)

theorem flipWord?_eq (hb : b.Valid) (hk : k < 1024) (mask : UInt64) :
    b.flipWord? k mask = some (ofWords (b.words.update k (· ^^^ mask))) := by
  have hsize : b.size = #b.words.support := hb.trans (Words.popcount_eq_card _)
  have hbefore : Word.popcount (mask &&& b.words.word k) =
      #(b.words.support ∩ Words.spread k mask) := by
    rw [← Words.spread_and_word, Words.card_spread]
  have hset : Word.popcount (mask &&& b.words.word k) ≤ b.size := by
    rw [hbefore, hsize]
    exact card_le_card inter_subset_left
  have hmask : Word.popcount (mask &&& b.words.word k) ≤ Word.popcount mask := by
    rw [hbefore, ← Words.card_spread k mask]
    exact card_le_card inter_subset_right
  have hcount : (b.words.update k (· ^^^ mask)).popcount =
      b.size - Word.popcount (mask &&& b.words.word k) +
        (Word.popcount mask - Word.popcount (mask &&& b.words.word k)) := by
    rw [Words.popcount_eq_card, Words.support_flipWord _ hk, card_symmDiff, hbefore, hsize,
      Words.card_spread]
  rw [flipWord?, Nat.psub_eq_sub hset, Nat.psub_eq_sub hmask, ofWords, hcount]
  rfl

theorem flipRange?_eq (hb : b.Valid) (hhi : hi < chunkSize) :
    b.flipRange? lo hi = some (b.flipRange lo hi) := by
  let flipWord : Block → Nat × UInt64 → Block := fun b km =>
    ofWords (b.words.update km.1 (· ^^^ km.2))
  have hstep : ∀ b : Block, b.Valid → ∀ km ∈ Words.rangeMasks lo hi,
      b.flipWord? km.1 km.2 = some (flipWord b km) ∧ (flipWord b km).Valid :=
    fun b hb km hkm => ⟨flipWord?_eq hb (Words.lt_of_mem_rangeMasks hhi hkm) km.2, rfl⟩
  obtain ⟨hrun, hvalid⟩ := foldlM_eq_some hstep hb
  have hwords : ((Words.rangeMasks lo hi).foldl flipWord b).words = (b.flipRange lo hi).words :=
    (List.foldl_hom Block.words fun _ _ => rfl).symm
  rw [flipRange?, hrun, hvalid.eq_of_words (flipRange_denotes hb.denotes hhi).1 hwords]

theorem eraseAll?_eq (hb : b.Valid) (ha : a.Valid) : b.eraseAll? a = some (b.eraseAll a) := by
  have hstep : ∀ b : Block, b.Valid → ∀ p ∈ a.toList,
      (·.1) <$> b.erase? p = some (b.erase p).1 ∧ (b.erase p).1.Valid := by
    intro b hb p hp
    rw [erase?_eq hb]
    exact ⟨rfl, (erase_denotes hb.denotes (ha.2 p hp)).1.1⟩
  rw [eraseAll?, (foldlM_eq_some hstep hb).1, eraseAll, ← Array.foldl_toList]
  rfl

theorem toggleAll?_eq (hb : b.Valid) (ha : a.Valid) : b.toggleAll? a = some (b.toggleAll a) := by
  have hstep : ∀ b : Block, b.Valid → ∀ p ∈ a.toList,
      b.toggle? p = some (b.toggle p) ∧ (b.toggle p).Valid := fun b hb p hp =>
    ⟨toggle?_eq hb (ha.2 p hp), (toggle_denotes hb.denotes (ha.2 p hp)).1⟩
  rw [toggleAll?, (foldlM_eq_some hstep hb).1, toggleAll, ← Array.foldl_toList]
  rfl

end Block

def Operation.onBlocks : Operation → Block → Block → Block
  | union => Block.union
  | intersection => Block.intersection
  | difference => Block.difference
  | symmetricDifference => Block.symmetricDifference

namespace Block

variable {b c : Block} {P : Nat → Prop}

/-- The block of the positions with a property: its size is the number of its set bits, and it is
the only one. -/
structure BitsOf (b : Block) (P : Nat → Prop) : Prop where
  counted : b.size = b.words.popcount
  mem : ∀ p, p ∈ b ↔ P p
  unique : ∀ c : Block, c.Valid → (∀ p, p ∈ c ↔ P p) → c = b

theorem Denotes.bitsOf (h : b.Denotes S) (hP : ∀ p, p ∈ S ↔ P p) : b.BitsOf P where
  counted := h.1
  mem p := (h.2 p).trans (hP p)
  unique _ hc hmem := Denotes.eq ⟨hc, fun p => (hmem p).trans (hP p).symm⟩ h

theorem bitsOf_onSets (op : Operation) (hc : c.Denotes (op.onSets b.words.support T))
    (hT : ∀ p, p ∈ T ↔ P p) : c.BitsOf fun p => op.Holds (p ∈ b) (P p) :=
  hc.bitsOf fun p => by rw [op.mem_onSets, Words.mem_support, ← mem_iff_contains, hT]

theorem onBlocks_denotes (op : Operation) (hb : b.Denotes S) (hc : c.Denotes T) :
    (op.onBlocks b c).Denotes (op.onSets S T) := by
  cases op with
  | union => exact union_denotes hb hc
  | intersection => exact intersection_denotes hb hc
  | difference => exact difference_denotes hb hc
  | symmetricDifference => exact symmetricDifference_denotes hb hc

inductive Change
  | insertRange (lo hi : Nat)
  | eraseRange (lo hi : Nat)
  | flipRange (lo hi : Nat)
  | retainRuns (l : RunList)
  | orNot (c : Block) (last : Nat)
  | combine (op : Operation) (c : Block)
  | insertAll (a : SortedArray)
  | eraseAll (a : SortedArray)
  | toggleAll (a : SortedArray)

namespace Change

/-- The arguments are positions, and runs are in order but may touch. -/
def Legal : Change → Prop
  | insertRange _ hi => hi < chunkSize
  | eraseRange _ hi => hi < chunkSize
  | flipRange _ hi => hi < chunkSize
  | retainRuns l => (l.toList.Pairwise fun r s => r.last < s.first) ∧
      ∀ r ∈ l.toList, r.first ≤ r.last ∧ r.last < chunkSize
  | orNot _ last => last < chunkSize
  | combine _ _ => True
  | insertAll a => a.Valid
  | eraseAll a => a.Valid
  | toggleAll a => a.Valid

def apply : Change → Block → Block
  | insertRange lo hi, b => (b.insertRange lo hi).1
  | eraseRange lo hi, b => (b.eraseRange lo hi).1
  | flipRange lo hi, b => b.flipRange lo hi
  | retainRuns l, b => b.retainRuns l
  | orNot c last, b => b.orNot c last
  | combine op c, b => op.onBlocks b c
  | insertAll a, b => b.insertAll a
  | eraseAll a, b => b.eraseAll a
  | toggleAll a, b => b.toggleAll a

def checked? : Change → Block → Option Block
  | eraseRange lo hi, b => (·.1) <$> b.eraseRange? lo hi
  | flipRange lo hi, b => b.flipRange? lo hi
  | retainRuns l, b => retainFrom? l.toList 0 b
  | eraseAll a, b => b.eraseAll? a
  | toggleAll a, b => b.toggleAll? a
  | change, b => some (change.apply b)

def Holds : Change → Prop → Nat → Prop
  | insertRange lo hi, old, p => old ∨ lo ≤ p ∧ p ≤ hi
  | eraseRange lo hi, old, p => old ∧ ¬(lo ≤ p ∧ p ≤ hi)
  | flipRange lo hi, old, p => old ∧ ¬(lo ≤ p ∧ p ≤ hi) ∨ ¬old ∧ lo ≤ p ∧ p ≤ hi
  | retainRuns l, old, p => old ∧ p ∈ l
  | orNot c last, old, p => old ∨ p ≤ last ∧ p ∉ c
  | combine op c, old, p => op.Holds old (p ∈ c)
  | insertAll a, old, p => old ∨ p ∈ a
  | eraseAll a, old, p => old ∧ p ∉ a
  | toggleAll a, old, p => old ∧ p ∉ a ∨ ¬old ∧ p ∈ a

variable {change : Change}

theorem checked?_eq (hlegal : change.Legal) (hb : b.Valid) :
    change.checked? b = some (change.apply b) := by
  cases change with
  | insertRange lo hi => rfl
  | eraseRange lo hi =>
    rw [checked?, eraseRange?_eq hb]
    rfl
  | flipRange lo hi => exact flipRange?_eq hb hlegal
  | retainRuns l => exact retainFrom?_eq hb l.toList 0
  | orNot c last => rfl
  | combine op c => rfl
  | insertAll a => rfl
  | eraseAll a => exact eraseAll?_eq hb hlegal
  | toggleAll a => exact toggleAll?_eq hb hlegal

theorem apply_bitsOf (hlegal : change.Legal) (hb : b.Valid) :
    (change.apply b).BitsOf fun p => change.Holds (p ∈ b) p := by
  have hden := hb.denotes
  cases change with
  | insertRange lo hi =>
    exact bitsOf_onSets .union (insertRange_denotes hden hlegal).1 fun p => mem_Icc
  | eraseRange lo hi =>
    exact bitsOf_onSets .difference (eraseRange_denotes hden lo hi).1 fun p => mem_Icc
  | flipRange lo hi =>
    exact bitsOf_onSets .symmetricDifference (flipRange_denotes hden hlegal) fun p => mem_Icc
  | retainRuns l =>
    exact bitsOf_onSets .intersection (retainRuns_denotes_of_sorted hden hlegal.1 hlegal.2)
      fun p => RunList.mem_covered
  | orNot c last =>
    have hother := ofWords_denotes c.words
    refine bitsOf_onSets .union (orNot_denotes hden hother hlegal) fun p => ?_
    rw [mem_sdiff, mem_Icc, and_iff_right (Nat.zero_le p), ← hother.2 p]
    rfl
  | combine op c =>
    have hother := ofWords_denotes c.words
    have hcombined : op.onBlocks b c = op.onBlocks b (ofWords c.words) := by cases op <;> rfl
    rw [apply, hcombined]
    exact bitsOf_onSets op (onBlocks_denotes op hden hother) fun p => (hother.2 p).symm
  | insertAll a =>
    have ha := SortedArray.Valid.denotes hlegal
    exact bitsOf_onSets .union (insertAll_denotes hden ha) fun p => (ha.2 p).symm
  | eraseAll a =>
    have ha := SortedArray.Valid.denotes hlegal
    exact bitsOf_onSets .difference (eraseAll_denotes hden ha) fun p => (ha.2 p).symm
  | toggleAll a =>
    have ha := SortedArray.Valid.denotes hlegal
    exact bitsOf_onSets .symmetricDifference (toggleAll_denotes hden ha) fun p => (ha.2 p).symm

theorem run_valid {changes : List Change} (hlegal : ∀ change ∈ changes, change.Legal)
    (hb : b.Valid) :
    changes.foldlM (fun b change => change.checked? b) b =
        some (changes.foldl (fun b change => change.apply b) b) ∧
      (changes.foldl (fun b change => change.apply b) b).Valid := by
  have hstep : ∀ b : Block, b.Valid → ∀ change ∈ changes,
      change.checked? b = some (change.apply b) ∧ (change.apply b).Valid := fun b hb change hin =>
    ⟨checked?_eq (hlegal change hin) hb, (apply_bitsOf (hlegal change hin) hb).counted⟩
  exact foldlM_eq_some hstep hb

end Change

/-! What is answered about a range. -/

theorem filter_Icc_eq_inter (hb : b.Valid) (lo hi : Nat) :
    {p ∈ Icc lo hi | p ∈ b} = b.words.support ∩ Icc lo hi := by
  ext p
  rw [mem_filter, mem_inter, hb.denotes.2 p, and_comm]

theorem filter_Icc_eq_sdiff (hb : b.Valid) (lo hi : Nat) :
    {p ∈ Icc lo hi | p ∉ b} = Icc lo hi \ b.words.support := by
  ext p
  rw [mem_filter, mem_sdiff, hb.denotes.2 p]

theorem size_eraseRange (hb : b.Valid) (lo hi : Nat) :
    (b.eraseRange lo hi).1.size + (b.eraseRange lo hi).2 = b.size := by
  obtain ⟨hden, hremoved⟩ := eraseRange_denotes hb.denotes lo hi
  rw [hden.size, hremoved, hb.denotes.size, card_sdiff_add_card_inter]

theorem containsRange_iff (hb : b.Valid) (lo hi : Nat) :
    b.containsRange lo hi = true ↔ ∀ p ∈ Icc lo hi, p ∈ b := by
  rw [containsRange, Words.containsRange_iff]
  exact forall₂_congr fun p _ => (hb.denotes.2 p).symm

/-- A change sets the bits that it should and no others, and leaves the size the number of set
bits, without a subtraction that would go below zero. The counts that are reported for a range are
those of the bits in it that are set, or that are not. -/
theorem changes_keep_count (hb : b.Valid) :
    (∀ change : Change, change.Legal →
      (change.apply b).BitsOf (fun p => change.Holds (p ∈ b) p) ∧
      change.checked? b = some (change.apply b)) ∧
    (∀ changes : List Change, (∀ change ∈ changes, change.Legal) →
      changes.foldlM (fun b change => change.checked? b) b =
        some (changes.foldl (fun b change => change.apply b) b) ∧
      (changes.foldl (fun b change => change.apply b) b).Valid) ∧
    ∀ lo hi, hi < chunkSize →
      (b.insertRange lo hi).2 = #{p ∈ Icc lo hi | p ∉ b} ∧
      (b.insertRange lo hi).1.size = b.size + (b.insertRange lo hi).2 ∧
      (b.eraseRange lo hi).2 = #{p ∈ Icc lo hi | p ∈ b} ∧
      (b.eraseRange lo hi).1.size + (b.eraseRange lo hi).2 = b.size ∧
      b.eraseRange? lo hi = some (b.eraseRange lo hi) ∧
      b.rangeSize lo hi = #{p ∈ Icc lo hi | p ∈ b} ∧
      (b.containsRange lo hi = true ↔ ∀ p ∈ Icc lo hi, p ∈ b) := by
  have hden := hb.denotes
  refine ⟨fun change hlegal => ⟨Change.apply_bitsOf hlegal hb, Change.checked?_eq hlegal hb⟩,
    fun changes hlegal => Change.run_valid hlegal hb, fun lo hi hhi => ?_⟩
  rw [filter_Icc_eq_inter hb, filter_Icc_eq_sdiff hb]
  exact ⟨(insertRange_denotes hden hhi).2, rfl, (eraseRange_denotes hden lo hi).2,
    size_eraseRange hb lo hi, eraseRange?_eq hb lo hi, rangeSize_eq_card hden lo hi,
    containsRange_iff hb lo hi⟩

/-- Bits on both sides of the bound between two words, and runs of which two touch. -/
theorem changes_keep_count_across_words :
    let b := (empty.insertRange 60 70).1
    let l : RunList := ⟨#[⟨0, 61⟩, ⟨62, 65⟩, ⟨70, 65535⟩]⟩
    b.Valid ∧ (Change.retainRuns l).Legal ∧ (Change.flipRange 64 80).Legal ∧ 80 < chunkSize ∧
      (∀ p, p ∈ b.retainRuns l ↔ (60 ≤ p ∧ p ≤ 65) ∨ p = 70) ∧
      (∀ p, p ∈ b.flipRange 64 80 ↔ (60 ≤ p ∧ p ≤ 63) ∨ (71 ≤ p ∧ p ≤ 80)) ∧
      b.flipRange? 64 80 = some (b.flipRange 64 80) ∧
      (b.insertRange 65 80).2 = 10 ∧ (b.eraseRange 65 80).2 = 6 ∧ b.rangeSize 65 80 = 6 ∧
      b.containsRange 65 80 = false := by
  intro b l
  have hden : b.Denotes (∅ ∪ Icc 60 70) := (insertRange_denotes empty_denotes (by decide)).1
  have hb : b.Valid := hden.1
  have hmem : ∀ p, p ∈ b ↔ 60 ≤ p ∧ p ≤ 70 := fun p => by
    rw [hden.2 p, empty_union, mem_Icc]
  have hretain : (Change.retainRuns l).Legal := by
    rw [Change.Legal]
    decide
  have hflip : (Change.flipRange 64 80).Legal := by
    rw [Change.Legal]
    decide
  have hhi : 80 < chunkSize := by decide
  obtain ⟨hchange, -, hrange⟩ := changes_keep_count hb
  obtain ⟨hadded, -, hremoved, -, -, hcount, hcontains⟩ := hrange 65 80 hhi
  simp only [hmem] at hadded hremoved hcount hcontains
  refine ⟨hb, hretain, hflip, hhi, fun p => ?_, fun p => ?_, (hchange _ hflip).2, ?_, ?_, ?_, ?_⟩
  · refine ((hchange _ hretain).1.mem p).trans ?_
    simp only [Change.Holds, hmem, RunList.mem_def, Run.mem_def, RunList.toList, l, List.mem_cons,
      List.not_mem_nil, or_false, exists_eq_or_imp, exists_eq_left]
    omega
  · refine ((hchange _ hflip).1.mem p).trans ?_
    simp only [Change.Holds, hmem]
    omega
  · rw [hadded]
    decide
  · rw [hremoved]
    decide
  · rw [hcount]
    decide
  · rw [Bool.eq_false_iff, ne_eq, hcontains]
    decide

end Block

end ChunkedSet
