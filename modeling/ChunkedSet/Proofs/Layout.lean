import Mathlib.Algebra.Order.BigOperators.Group.List
import ChunkedSet.Proofs.Encode

/-!
# Sizes and places of what is written

The size of a written set is computed without writing it, and so are the places of its payloads.
Both agree with the bytes.
-/

namespace ChunkedSet

theorem Chunk.length_encode (c : Chunk) : c.encode.length = c.bytes := by
  cases c with
  | array a =>
    rw [encode, Bytes.length_flatMap_ofNat]
    rfl
  | block b =>
    rw [encode, Bytes.length_flatMap_ofWord, Vector.length_toList]
    rfl
  | runs l =>
    rw [← Payload.bytes_ofChunk, Payload.ofChunk, Payload.bytes, List.length_append,
      Bytes.length_ofNat, Payload.length_flatMap_pairBytes, List.length_map]
    rfl

theorem Bytes.drop_flatMap_ofNat (width : Nat) (numbers : List Nat) (index : Nat) :
    (numbers.flatMap (ofNat width)).drop (width * index) =
      (numbers.drop index).flatMap (ofNat width) := by
  induction index generalizing numbers with
  | zero => rfl
  | succ index ih =>
    cases numbers with
    | nil => simp
    | cons x numbers =>
      rw [List.flatMap_cons, Nat.mul_succ, Nat.add_comm, ← List.drop_drop,
        List.drop_left' (length_ofNat width x), ih, List.drop_succ_cons]

def placeOf (start : Nat) (sizes : List Nat) (index : Nat) : Nat := start + (sizes.take index).sum

theorem Entry.toList_foldl_offsets (entries : List Entry) (start : Nat) (out : Array Nat) :
    (entries.foldl (fun (offset, out) e => (offset + e.chunk.bytes, out.push offset))
      (start, out)).2.toList =
    out.toList ++ (List.range entries.length).map (placeOf start (entries.map (·.chunk.bytes))) := by
  induction entries generalizing start out with
  | nil => simp
  | cons e entries ih =>
    rw [List.foldl_cons, ih, List.length_cons, List.range_succ_eq_map]
    simp [placeOf, Nat.add_assoc]

theorem Entry.offsets_eq (entries : Array Entry) (start : Nat) : offsets entries start =
    (List.range entries.size).map (placeOf start (entries.toList.map (·.chunk.bytes))) := by
  rw [offsets, ← Array.foldl_toList, toList_foldl_offsets]
  simp

namespace IntSet

variable {s : IntSet}

def place (s : IntSet) (index : Nat) : Nat :=
  placeOf (Header.ofSet s).bytes (s.entries.toList.map (·.chunk.bytes)) index

def preamble (s : IntSet) : List UInt8 :=
  (Header.ofSet s).encode (s.entries.toList.map (·.chunk.isRuns)) ++
    s.entries.toList.flatMap Entry.encodeDescription

def offsetBytes (s : IntSet) : List UInt8 :=
  if (Header.ofSet s).hasOffsets then
    (Entry.offsets s.entries (Header.ofSet s).bytes).flatMap (Bytes.ofNat 4)
  else []

theorem encode_eq (s : IntSet) :
    s.encode = s.preamble ++ s.offsetBytes ++ s.entries.toList.flatMap (·.chunk.encode) := rfl

theorem length_payloads (entries : List Entry) :
    (entries.flatMap (·.chunk.encode)).length = (entries.map (·.chunk.bytes)).sum := by
  induction entries with
  | nil => rfl
  | cons e entries ih => simp [ih, Chunk.length_encode]

theorem length_descriptions (entries : List Entry) :
    (entries.flatMap Entry.encodeDescription).length = 4 * entries.length := by
  induction entries with
  | nil => rfl
  | cons e entries ih =>
    simp only [List.flatMap_cons, List.length_append, Entry.encodeDescription, Bytes.length_ofNat,
      ih, List.length_cons]
    omega

theorem length_preamble (s : IntSet) : s.preamble.length =
    4 + (if (Header.ofSet s).hasRuns then 0 else 4) + (Header.ofSet s).flagBytes +
      4 * s.entries.size := by
  simp only [preamble, Header.encode, Header.flagBytes, List.length_append, length_descriptions]
  split <;> simp [Bytes.length_ofNat, Bytes.length_pack, Header.ofSet]

theorem length_offsetBytes (s : IntSet) : s.offsetBytes.length =
    if (Header.ofSet s).hasOffsets then 4 * s.entries.size else 0 := by
  simp only [offsetBytes]
  split
  · rw [Bytes.length_flatMap_ofNat, Image.length_offsets]
  · rfl

theorem length_head (s : IntSet) :
    (s.preamble ++ s.offsetBytes).length = (Header.ofSet s).bytes := by
  rw [List.length_append, length_preamble, length_offsetBytes, Header.bytes]
  rfl

theorem length_encode (s : IntSet) : s.encode.length = s.bytes := by
  rw [encode_eq, List.length_append, length_head, length_payloads, bytes, ← Array.foldl_toList,
    Words.foldl_add_eq_sum, Nat.zero_add]

theorem encode_split {index : Nat} {e : Entry} (he : s.entries.toList[index]? = some e) :
    ∃ front back, s.encode = front ++ e.chunk.encode ++ back ∧ front.length = s.place index := by
  obtain ⟨hlt, hget⟩ := List.getElem?_eq_some_iff.1 he
  have hsplit := List.take_append_drop index s.entries.toList
  rw [List.drop_eq_getElem_cons hlt, hget] at hsplit
  refine ⟨s.preamble ++ s.offsetBytes ++ (s.entries.toList.take index).flatMap (·.chunk.encode),
    (s.entries.toList.drop (index + 1)).flatMap (·.chunk.encode), ?_, ?_⟩
  · rw [encode_eq]
    nth_rewrite 1 [← hsplit]
    simp
  · rw [List.length_append, length_head, length_payloads, place, placeOf, List.map_take]

def slot (s : IntSet) (index : Nat) : List UInt8 :=
  (s.encode.drop (s.preamble.length + 4 * index)).take 4

theorem slot_eq (hoffsets : (Header.ofSet s).hasOffsets = true) {index : Nat}
    (hindex : index < s.entries.size) : s.slot index = Bytes.ofNat 4 (s.place index) := by
  have hlength : index < (Entry.offsets s.entries (Header.ofSet s).bytes).length := by
    rwa [Image.length_offsets]
  have hget : (Entry.offsets s.entries (Header.ofSet s).bytes)[index] = s.place index := by
    simp [Entry.offsets_eq, place]
  rw [slot, encode_eq, List.append_assoc, ← List.drop_drop, List.drop_left, offsetBytes,
    if_pos hoffsets, List.drop_append_of_le_length, Bytes.drop_flatMap_ofNat,
    List.drop_eq_getElem_cons hlength, hget, List.flatMap_cons, List.append_assoc]
  · exact List.take_left' (Bytes.length_ofNat 4 _)
  · rw [Bytes.length_flatMap_ofNat]
    exact Nat.mul_le_mul_left 4 hlength.le

theorem writeBytes_eq (list : List UInt8) (room : Nat) (out : Array UInt8) :
    writeBytes list room out =
      if list.length ≤ room then .ok (out ++ list.toArray) else .error .bufferFull := by
  induction list generalizing room out with
  | nil => simp [writeBytes]
  | cons b list ih =>
    cases room with
    | zero => simp [writeBytes]
    | succ room => simp [writeBytes, ih]

theorem writeInto_eq (s : IntSet) (capacity : Nat) : s.writeInto capacity =
    if s.bytes ≤ capacity then .ok s.encode.toArray else .error .bufferFull := by
  simp [writeInto, writeBytes_eq, length_encode]

/-! The numbers of the header. -/

theorem Header.bytes_lt (hs : s.Valid) : (Header.ofSet s).bytes < 2 ^ 20 := by
  have hcount : (Header.ofSet s).count ≤ 65536 := hs.count_le
  simp only [Header.bytes, Header.flagBytes]
  split_ifs <;> omega

theorem place_lt (hs : s.Valid) (hshort : ∀ e ∈ s.entries.toList, e.chunk.bytes ≤ blockBytes)
    (index : Nat) : s.place index < 2 ^ 32 := by
  have hheader := Header.bytes_lt hs
  have hcount : s.entries.toList.length ≤ 65536 := hs.count_le
  have hsum := List.sum_le_card_nsmul ((s.entries.toList.map (·.chunk.bytes)).take index) blockBytes
    (by
      intro n hn
      obtain ⟨e, he, rfl⟩ := List.mem_map.1 (List.mem_of_mem_take hn)
      exact hshort e he)
  simp only [List.length_take, List.length_map, Nat.nsmul_eq_mul, blockBytes] at hsum
  rw [place, placeOf]
  have hlength : min index s.entries.toList.length * 8192 ≤ 65536 * 8192 :=
    Nat.mul_le_mul_right _ ((Nat.min_le_right _ _).trans hcount)
  omega

/-- What is written has the computed size, each payload stands at its place, and each offset is
that place modulo 32 bits. The other numbers that are written all fit their width. -/
theorem layout_correct (hs : s.WellFormed) :
    s.encode.length = s.bytes ∧
    (∀ (index : Nat) (e : Entry), s.entries.toList[index]? = some e →
      ∃ front back, s.encode = front ++ e.chunk.encode ++ back ∧ front.length = s.place index ∧
        ((Header.ofSet s).hasOffsets = true → Bytes.toNat (s.slot index) = front.length % 2 ^ 32)) ∧
    ((∀ e ∈ s.entries.toList, e.chunk.bytes ≤ blockBytes) → ∀ index, s.place index < 2 ^ 32) ∧
    ((Header.ofSet s).bytes < 2 ^ 32 ∧ s.entries.size ≤ 2 ^ 16 ∧
      ∀ e ∈ s.entries.toList, 1 ≤ e.size ∧ e.size ≤ 2 ^ 16 ∧
        ∀ l, e.chunk = .runs l → l.runCount < 2 ^ 16) ∧
    ∀ capacity, s.writeInto capacity =
      if s.bytes ≤ capacity then .ok s.encode.toArray else .error .bufferFull := by
  refine ⟨length_encode s, fun index e he => ?_, place_lt hs.valid, ⟨?_, hs.valid.count_le,
    fun e he => ?_⟩, writeInto_eq s⟩
  · obtain ⟨front, back, hsplit, hfront⟩ := encode_split he
    refine ⟨front, back, hsplit, hfront, fun hoffsets => ?_⟩
    obtain ⟨hlt, -⟩ := List.getElem?_eq_some_iff.1 he
    rw [slot_eq hoffsets hlt, Bytes.toNat_ofNat, hfront, Nat.pow_mul 2 8 4]
  · exact (Header.bytes_lt hs.valid).trans (by decide)
  · obtain ⟨hpos, hle⟩ := hs.valid.entry_size he
    refine ⟨hpos, hle, fun l hl => ?_⟩
    have hvalid := (hs.valid.2 e he).2.1
    rw [hl] at hvalid
    exact (RunList.Valid.runCount_le hvalid).trans_lt (by decide)

theorem slot_eq_place_iff (hoffsets : (Header.ofSet s).hasOffsets = true) {index : Nat}
    (hindex : index < s.entries.size) :
    Bytes.toNat (s.slot index) = s.place index ↔ s.place index < 2 ^ 32 := by
  rw [slot_eq hoffsets hindex, Bytes.toNat_ofNat, Nat.pow_mul 2 8 4]
  exact Nat.mod_eq_iff_lt (by decide)

/-- Runs may take more bytes than a block, and then places may reach beyond 32 bits. -/
theorem exists_place_ge : ∃ (s : IntSet) (index : Nat), s.WellFormed ∧
    (Header.ofSet s).hasOffsets = true ∧ index < s.entries.size ∧ 2 ^ 32 ≤ s.place index := by
  let runs : List Run := (List.range 32768).map fun i => ⟨2 * i, 2 * i⟩
  let entries : List Entry := (List.range 32769).map fun key => ⟨key, .runs ⟨runs.toArray⟩⟩
  have hruns : RunList.Valid ⟨runs.toArray⟩ := by
    refine ⟨?_, ?_⟩
    · simp only [RunList.Apart, RunList.toList, runs, List.pairwise_map]
      exact List.pairwise_lt_range.imp fun h => by omega
    · simp only [RunList.toList, runs, List.mem_map, List.mem_range]
      rintro r ⟨i, hi, rfl⟩
      simp only [chunkSize]
      omega
  have hsizes : entries.map (·.chunk.bytes) = List.replicate 32769 131074 := by
    have hbytes : (Chunk.runs ⟨runs.toArray⟩).bytes = 131074 := by
      simp only [Chunk.bytes, RunList.runCount, runBytes, runs, List.size_toArray, List.length_map,
        List.length_range]
    rw [List.map_map]
    simp only [Function.comp_def, hbytes, List.map_const', List.length_range]
  refine ⟨⟨entries.toArray⟩, 32768, ⟨?_, ?_⟩, ?_, ?_, ?_⟩
  · have hkeys : entries.map Entry.key = List.range 32769 := by
      rw [List.map_map]
      exact List.map_id _
    rw [keys, hkeys]
    exact List.pairwise_lt_range
  · simp only [entries, List.mem_map, List.mem_range]
    rintro e ⟨key, hkey, rfl⟩
    refine ⟨?_, hruns, ?_⟩
    · simp only [chunkSize]
      omega
    · have hne : runs ≠ [] := List.ne_nil_of_length_pos (by simp [runs])
      simpa [Entry.isEmpty, Chunk.isEmpty, RunList.isEmpty] using hne
  · simp [Header.hasOffsets, Header.ofSet, entries, offsetThreshold]
  · simp [entries]
  · rw [place, placeOf]
    simp only [hsizes, List.take_replicate, List.sum_replicate, Nat.nsmul_eq_mul]
    omega

end IntSet

end ChunkedSet
