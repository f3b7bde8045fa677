import ChunkedSet.Proofs.SetTrim
import ChunkedSet.Proofs.Selection

/-!
# Shifted sets

Moving keys and moving values one by one lead to the same values. Both can be done in signed words
of 64 bits: a sum that leaves the word belongs to a value that leaves the domain.
-/

namespace ChunkedSet.IntSet

variable {s t : IntSet} {u : Nat} {offset keys : Int}

theorem toList_congr (hs : s.Valid) (ht : t.Valid) (h : ∀ u, u ∈ s ↔ u ∈ t) :
    s.toList = t.toList :=
  hs.lists.unique (ht.lists.congr fun u => (h u).symm)

theorem mem_shiftKeys (s : IntSet) (keys : Int) :
    u ∈ s.shiftKeys keys ↔ u < domainSize ∧ ∃ v ∈ s, (v : Int) + 65536 * keys = u := by
  have hlist : (s.shiftKeys keys).entries.toList = s.entries.toList.filterMap (movedEntry keys) :=
    Array.toList_filterMap
  rw [mem_def, hlist]
  constructor
  · rintro ⟨f, hf, hkey, hmem⟩
    obtain ⟨e, he, hef⟩ := List.mem_filterMap.1 hf
    obtain ⟨hmoved, hlt, hchunk⟩ := movedEntry_eq_some.1 hef
    have hpos := positionOf_lt u
    refine ⟨?_, valueAt e.key (positionOf u), (mem_def s _).2 ⟨e, he, ?_, ?_⟩, ?_⟩
    · unfold keyOf chunkSize domainSize at *
      omega
    · rw [keyOf_valueAt _ hpos]
    · rw [positionOf_valueAt _ hpos, ← hchunk]
      exact hmem
    · unfold valueAt keyOf positionOf at *
      omega
  · rintro ⟨hlt, v, hv, hmoved⟩
    obtain ⟨e, he, hkey, hmem⟩ := (mem_def s v).1 hv
    have hposition : positionOf u = positionOf v := by
      unfold positionOf
      omega
    refine ⟨⟨keyOf u, e.chunk⟩, List.mem_filterMap.2 ⟨e, he, movedEntry_eq_some.2 ?_⟩, rfl, ?_⟩
    · refine ⟨?_, keyOf_lt hlt, rfl⟩
      unfold keyOf at *
      simp only
      omega
    · rwa [hposition]

theorem Valid.shiftKeys (hs : s.Valid) (keys : Int) : (s.shiftKeys keys).Valid := by
  obtain ⟨G, hG⟩ := shiftKeys_denotes hs.denotes keys
  exact hG.valid

theorem Valid.shiftValues (hs : s.Valid) (offset : Int) : (s.shiftValues offset).Valid := by
  obtain ⟨G, hG, -⟩ := shiftValues_denotes Chunk.grade_valid hs.denotes offset
  exact hG.valid

theorem Valid.mem_shiftValues (hs : s.Valid) :
    u ∈ s.shiftValues offset ↔ u < domainSize ∧ ∃ v ∈ s, (v : Int) + offset = u := by
  obtain ⟨G, -, hmem⟩ := shiftValues_denotes Chunk.grade_valid hs.denotes offset
  exact hmem u

theorem Valid.toList_shiftKeys (hs : s.Valid) (keys : Int) :
    (s.shiftKeys keys).toList = (s.shiftValues (65536 * keys)).toList :=
  toList_congr (hs.shiftKeys keys) (hs.shiftValues _) fun _ =>
    (mem_shiftKeys s keys).trans hs.mem_shiftValues.symm

theorem Valid.addOffset (hs : s.Valid) (offset : Int) : (s.addOffset offset).Valid := by
  obtain ⟨G, hG⟩ := addOffset_denotes Chunk.grade_valid hs.denotes offset
  exact hG.valid

theorem Valid.mem_addOffset (hs : s.Valid) :
    u ∈ s.addOffset offset ↔ u < domainSize ∧ ∃ v ∈ s, (v : Int) + offset = u := by
  rw [IntSet.addOffset]
  split
  · rename_i hmod
    rw [mem_shiftKeys, Int.mul_ediv_cancel' (Int.dvd_of_emod_eq_zero hmod)]
  · exact hs.mem_shiftValues

/-! Signed words of 64 bits. -/

section Words

variable (w : Int64)

def sumInWord (n : Nat) (w : Int64) : Option Int64 :=
  let sum := Int64.ofNat n + w
  if sum.toInt = n + w.toInt then some sum else none

def movedEntryInWords (w : Int64) (e : Entry) : Option Entry :=
  let moved := Int64.ofNat e.key + w >>> 16
  if 0 ≤ moved ∧ moved < 65536 then some ⟨moved.toNatClampNeg, e.chunk⟩ else none

def appendMovedInWords (w : Int64) (out : IntSet) (v : Nat) : IntSet :=
  match sumInWord v w with
  | some moved => if 0 ≤ moved ∧ moved < 4294967296 then out.append moved.toNatClampNeg else out
  | none => out

/-- The shift as it is done in words. -/
def addOffsetInWords (s : IntSet) (w : Int64) : IntSet :=
  if w % 65536 = 0 then ⟨s.entries.filterMap (movedEntryInWords w)⟩
  else s.toList.foldl (appendMovedInWords w) empty

theorem word_mod_eq_zero_iff : w % 65536 = 0 ↔ w.toInt % 65536 = 0 := by
  rw [← Int64.toInt_inj, Int64.toInt_mod, ← Int.dvd_iff_emod_eq_zero, Int.dvd_iff_tmod_eq_zero]
  rfl

theorem toInt_word_shiftRight : (w >>> 16).toInt = w.toInt / 65536 := by
  have hshift : (w >>> 16).toBitVec = w.toBitVec.sshiftRight 16 := rfl
  rw [← Int64.toInt_toBitVec, hshift, BitVec.toInt_sshiftRight, Int64.toInt_toBitVec,
    Int.shiftRight_eq_div_pow]
  rfl

theorem toInt_ofNat_add {n : Nat} {w : Int64} (hn : n < 2 ^ 32)
    (h : -2 ^ 63 ≤ n + w.toInt ∧ n + w.toInt < 2 ^ 63) :
    (Int64.ofNat n + w).toInt = n + w.toInt := by
  rw [Int64.toInt_add, Int64.toInt_ofNat_of_lt (hn.trans (by decide))]
  exact Int.bmod_eq_of_le (by omega) (by omega)

theorem movedEntryInWords_eq {e : Entry} (he : e.key < chunkSize) :
    movedEntryInWords w e = movedEntry (w.toInt / 65536) e := by
  have hw := Int64.le_toInt w
  have hw' := Int64.toInt_lt w
  unfold chunkSize at he
  have hshift := toInt_word_shiftRight w
  have hsum : (Int64.ofNat e.key + w >>> 16).toInt = e.key + w.toInt / 65536 := by
    rw [toInt_ofNat_add (by omega) (by omega), hshift]
  simp only [movedEntryInWords, Int64.le_iff_toInt_le, Int64.lt_iff_toInt_lt, ← Int64.toNat_toInt,
    hsum]
  rfl

theorem appendMovedInWords_eq (out : IntSet) {v : Nat} (hv : v < domainSize) :
    appendMovedInWords w out v = appendMoved w.toInt out v := by
  have hw := Int64.le_toInt w
  have hw' := Int64.toInt_lt w
  unfold domainSize at hv
  by_cases hfits : -2 ^ 63 ≤ v + w.toInt ∧ v + w.toInt < 2 ^ 63
  · have hsum := toInt_ofNat_add hv hfits
    have hsome : sumInWord v w = some (Int64.ofNat v + w) := if_pos hsum
    simp only [appendMovedInWords, hsome, Int64.le_iff_toInt_le, Int64.lt_iff_toInt_lt,
      ← Int64.toNat_toInt, hsum]
    rfl
  · have hne : (Int64.ofNat v + w).toInt ≠ v + w.toInt := fun heq =>
      hfits ⟨heq ▸ Int64.le_toInt _, heq ▸ Int64.toInt_lt _⟩
    have hnone : sumInWord v w = none := if_neg hne
    have hleaves : ¬(0 ≤ (v : Int) + w.toInt ∧ (v : Int) + w.toInt < domainSize) := by
      unfold domainSize
      omega
    rw [appendMovedInWords, hnone, appendMoved, if_neg hleaves]

theorem Valid.addOffsetInWords_eq (hs : s.Valid) :
    s.addOffsetInWords w = s.addOffset w.toInt := by
  rw [addOffsetInWords, IntSet.addOffset]
  by_cases hmod : w % 65536 = 0
  · rw [if_pos hmod, if_pos ((word_mod_eq_zero_iff w).1 hmod)]
    refine congrArg IntSet.mk (Array.toList_inj.1 ?_)
    rw [Array.toList_filterMap, Array.toList_filterMap]
    refine List.filterMap_congr fun e he => ?_
    exact movedEntryInWords_eq w (hs.2 e he).1
  · rw [if_neg hmod, if_neg fun h => hmod ((word_mod_eq_zero_iff w).2 h), shiftValues_eq]
    refine List.foldl_ext _ _ _ fun out v hv => ?_
    exact appendMovedInWords_eq w out (hs.lt_domainSize (hs.denotes.mem_toList.1 hv))

end Words

/-- A shift leaves a valid set of the moved values that stay in the domain. Moving whole chunks
leads to the values that moving them one by one does, and words of 64 bits are wide enough. -/
theorem addOffset_correct (hs : s.Valid) :
    (∀ offset : Int, (s.addOffset offset).Valid ∧
      ∀ u, u ∈ s.addOffset offset ↔ u < domainSize ∧ ∃ v ∈ s, (v : Int) + offset = u) ∧
    (∀ keys : Int, s.addOffset (65536 * keys) = s.shiftKeys keys ∧
      (s.shiftKeys keys).toList = (s.shiftValues (65536 * keys)).toList) ∧
    ∀ w : Int64, s.addOffsetInWords w = s.addOffset w.toInt := by
  refine ⟨fun offset => ⟨hs.addOffset offset, fun _ => hs.mem_addOffset⟩,
    fun keys => ⟨?_, hs.toList_shiftKeys keys⟩, fun w => hs.addOffsetInWords_eq w⟩
  rw [addOffset, if_pos (Int.mul_emod_right 65536 keys),
    Int.mul_ediv_cancel_left keys (by decide)]

/-- One step down drops the zero and crosses into another chunk, the least word is a multiple of the
chunk size and drops all, and the greatest word leaves the word at every value but zero. -/
theorem addOffset_correct_mixed :
    let s : IntSet := ⟨#[⟨0, .array ⟨#[0, 65535]⟩⟩, ⟨1, .runs ⟨#[⟨0, 3⟩]⟩⟩,
      ⟨65535, .array ⟨#[65535]⟩⟩]⟩
    s.Valid ∧ (s.addOffset (-1)).Valid ∧ 65535 ∈ s.addOffset (-1) ∧ 65539 ∉ s.addOffset (-1) ∧
      (s.shiftKeys (-1)).toList = (s.shiftValues (-65536)).toList ∧
      s.addOffsetInWords Int64.minValue = s.addOffset (-2 ^ 63) ∧
      s.addOffsetInWords Int64.maxValue = s.addOffset (2 ^ 63 - 1) ∧
      ∀ u, u ∉ s.addOffset (2 ^ 63 - 1) := by
  intro s
  have hs : s.Valid := by decide
  have h := addOffset_correct hs
  refine ⟨hs, (h.1 (-1)).1, ((h.1 (-1)).2 65535).2 ⟨by decide, 65536, by decide, by decide⟩,
    fun hu => ?_, (h.2.1 (-1)).2, h.2.2 Int64.minValue, h.2.2 Int64.maxValue, fun u hu => ?_⟩
  · obtain ⟨-, v, hv, heq⟩ := ((h.1 (-1)).2 65539).1 hu
    obtain rfl : v = 65540 := by omega
    exact absurd hv (by decide)
  · obtain ⟨hlt, v, -, heq⟩ := ((h.1 (2 ^ 63 - 1)).2 u).1 hu
    unfold domainSize at hlt
    omega

end ChunkedSet.IntSet
