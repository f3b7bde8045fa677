import ChunkedSet.Codec.Writer
import ChunkedSet.Proofs.Decode

/-!
# Writing sets

A set is written as the bytes of an image that describes it. The image of a well-formed set is
legal, so that reading takes what was written back to the set.
-/

namespace ChunkedSet

/-- Runs apart take two positions each, the last one perhaps that behind the chunk. -/
theorem RunList.Apart.length_le {runs : List Run} (h : RunList.Apart runs) (lo : Nat)
    (hruns : ∀ r ∈ runs, lo ≤ r.first ∧ r.first ≤ r.last ∧ r.last < chunkSize)
    (hlo : lo ≤ chunkSize + 1) : 2 * runs.length + lo ≤ chunkSize + 1 := by
  induction runs generalizing lo with
  | nil => simpa using hlo
  | cons r runs ih =>
    obtain ⟨hfirst, hle, hlast⟩ := hruns r List.mem_cons_self
    have hrest : ∀ s ∈ runs, r.last + 2 ≤ s.first ∧ s.first ≤ s.last ∧ s.last < chunkSize :=
      fun s hs => ⟨(List.pairwise_cons.1 h).1 s hs, (hruns s (List.mem_cons_of_mem r hs)).2⟩
    have hlength := ih h.tail (r.last + 2) hrest (by omega)
    rw [List.length_cons]
    omega

theorem RunList.Valid.runCount_le {l : RunList} (h : l.Valid) : l.runCount ≤ 32768 := by
  have hlength := h.1.length_le 0 (fun r hr => ⟨Nat.zero_le _, h.2 r hr⟩) (Nat.zero_le _)
  have hcount : l.runCount = l.toList.length := rfl
  unfold chunkSize at hlength
  omega

namespace Payload

def ofChunk : Chunk → Payload
  | .array a => array a.toList
  | .block b => words b.words.toList
  | .runs l => runs (l.toList.map fun r => (r.first, r.last - r.first))

variable {c : Chunk}

theorem bytes_ofChunk (c : Chunk) : (ofChunk c).bytes = c.encode := by
  cases c with
  | array a => rfl
  | block b => rfl
  | runs l =>
    rw [ofChunk, bytes, Chunk.encode, List.length_map, List.flatMap_map]
    rfl

theorem map_ofPair {l : RunList} (h : l.Valid) :
    (l.toList.map fun r => (r.first, r.last - r.first)).map Run.ofPair = l.toList := by
  have hpair : ∀ r ∈ l.toList, Run.ofPair (r.first, r.last - r.first) = r := fun r hr => by
    rw [Run.ofPair, Nat.add_sub_cancel' (h.2 r hr).1]
  rw [List.map_map]
  exact (List.map_congr_left hpair).trans (List.map_id _)

theorem chunk_ofChunk (h : c.Valid) : (ofChunk c).chunk = c := by
  cases c with
  | array a => rfl
  | block b =>
    have hsize : b.size = b.words.popcount := h
    rw [ofChunk, chunk, Words.ofList_toList, ← Words.popcount_eq_sum, ← hsize]
  | runs l =>
    rw [ofChunk, chunk, map_ofPair h]
    rfl

theorem legal_ofChunk (h : c.WellFormed) (hne : c.isEmpty = false) :
    (ofChunk c).Legal c.isRuns c.size := by
  cases c with
  | array a => exact ⟨rfl, h.2, rfl, h.1.2, h.1.1⟩
  | block b =>
    refine ⟨rfl, h.2, Vector.length_toList, ?_⟩
    rw [← Words.popcount_eq_sum]
    exact h.1.symm
  | runs l =>
    have hpairs := map_ofPair h
    have hlength : (l.toList.map fun r => (r.first, r.last - r.first)).length = l.runCount :=
      List.length_map _
    refine ⟨rfl, ?_, ?_, fun p hp => ?_, ?_, ?_⟩
    · rw [hlength]
      exact Array.size_pos_iff.2 (Array.isEmpty_eq_false_iff.1 hne)
    · rw [hlength]
      exact RunList.Valid.runCount_le h
    · obtain ⟨r, hr, rfl⟩ := List.mem_map.1 hp
      obtain ⟨hle, hlast⟩ := h.2 r hr
      unfold chunkSize at hlast
      dsimp only
      omega
    · rw [← apart_iff_isChain, hpairs]
      exact h.1
    · rw [← size_ofPairs, hpairs]
      rfl

end Payload

namespace Image

def ofSet (s : IntSet) : Image where
  flags :=
    if (Header.ofSet s).hasRuns then some (Bytes.pack (s.entries.toList.map (·.chunk.isRuns)))
    else none
  items := s.entries.toList.map fun e => ⟨e.key, e.size, Payload.ofChunk e.chunk⟩
  offsets :=
    if (Header.ofSet s).hasOffsets then
      (Entry.offsets s.entries (Header.ofSet s).bytes).map (· % 4294967296)
    else []

variable {s : IntSet}

theorem toSet_ofSet (h : s.Valid) : (ofSet s).toSet = s := by
  have hentry : ∀ e ∈ s.entries.toList,
      Item.entry ⟨e.key, e.size, Payload.ofChunk e.chunk⟩ = e := fun e he => by
    rw [Item.entry, Payload.chunk_ofChunk (h.2 e he).2.1]
  have hentries := (List.map_congr_left hentry).trans (List.map_id _)
  rw [toSet, ofSet, List.map_map]
  exact congrArg (fun entries => IntSet.mk entries.toArray) hentries

theorem header_ofSet (s : IntSet) :
    (ofSet s).header = (Header.ofSet s).encode (s.entries.toList.map (·.chunk.isRuns)) := by
  have hcount : (ofSet s).items.length = (Header.ofSet s).count := List.length_map _
  rw [header, hcount, ofSet, Header.encode]
  dsimp only
  cases (Header.ofSet s).hasRuns with
  | false => rfl
  | true =>
    rw [if_pos rfl, if_pos rfl, runCookie, Nat.mul_comm, Header.ofNat_runCookie]

theorem description_ofSet (h : s.Valid) :
    (ofSet s).items.flatMap Item.description = s.entries.toList.flatMap Entry.encodeDescription := by
  rw [ofSet, List.flatMap_map]
  refine List.flatMap_congr fun e he => ?_
  have hsize : e.size + 65535 = e.size - 1 + 256 ^ 2 := by
    have hpos := (h.entry_size he).1
    omega
  rw [Item.description, Entry.encodeDescription, hsize, Bytes.ofNat_add_pow]

theorem offsets_ofSet (s : IntSet) :
    (ofSet s).offsets.flatMap (Bytes.ofNat 4) =
      if (Header.ofSet s).hasOffsets then
        (Entry.offsets s.entries (Header.ofSet s).bytes).flatMap (Bytes.ofNat 4)
      else [] := by
  rw [ofSet]
  dsimp only
  split
  · rw [List.flatMap_map]
    exact List.flatMap_congr fun offset _ => Bytes.ofNat_mod 4 offset
  · rfl

theorem payload_ofSet (s : IntSet) :
    (ofSet s).items.flatMap (·.payload.bytes) = s.entries.toList.flatMap (·.chunk.encode) := by
  rw [ofSet, List.flatMap_map]
  exact List.flatMap_congr fun e _ => Payload.bytes_ofChunk e.chunk

theorem bytes_ofSet (h : s.Valid) : (ofSet s).bytes = s.encode := by
  rw [bytes, header_ofSet, description_ofSet h, offsets_ofSet, payload_ofSet]
  rfl

theorem size_foldl_offsets (entries : List Entry) (start : Nat) (out : Array Nat) :
    (entries.foldl (fun (offset, out) e => (offset + e.chunk.bytes, out.push offset))
      (start, out)).2.size = out.size + entries.length := by
  induction entries generalizing start out with
  | nil => rfl
  | cons e entries ih =>
    rw [List.foldl_cons, ih, Array.size_push, List.length_cons]
    omega

theorem length_offsets (entries : Array Entry) (start : Nat) :
    (Entry.offsets entries start).length = entries.size := by
  have hsize := size_foldl_offsets entries.toList start #[]
  rw [Array.size_empty, Nat.zero_add] at hsize
  rw [Entry.offsets, ← Array.foldl_toList]
  exact hsize

theorem hasRuns_iff (s : IntSet) :
    (Header.ofSet s).hasRuns = true ↔ ∃ e ∈ s.entries.toList, e.chunk.isRuns = true := by
  rw [Header.ofSet, ← Array.any_toList, List.any_eq_true]

theorem flags_ofSet {flags : List UInt8} (h : flags ∈ (ofSet s).flags) :
    (Header.ofSet s).hasRuns = true ∧
      flags = Bytes.pack (s.entries.toList.map (·.chunk.isRuns)) := by
  rw [ofSet] at h
  dsimp only at h
  split at h
  · cases h
    exact ⟨‹_›, rfl⟩
  · cases h

theorem isNone_flags_ofSet (s : IntSet) :
    (ofSet s).flags.isNone = !(Header.ofSet s).hasRuns := by
  rw [ofSet]
  dsimp only
  cases (Header.ofSet s).hasRuns <;> rfl

theorem count_offsets_ofSet (s : IntSet) : (ofSet s).offsets.length =
    if (!(Header.ofSet s).hasRuns) = true ∨ 4 ≤ s.entries.size then s.entries.size else 0 := by
  have hiff : (Header.ofSet s).hasOffsets = true ↔
      (!(Header.ofSet s).hasRuns) = true ∨ 4 ≤ s.entries.size := by
    rw [Header.hasOffsets, Bool.or_eq_true, decide_eq_true_iff]
    rfl
  rw [ofSet]
  dsimp only
  split
  · rw [if_pos (hiff.1 ‹_›), List.length_map, length_offsets]
  · rw [if_neg fun h => absurd (hiff.2 h) ‹_›]
    rfl

theorem flagged_ofSet (s : IntSet) {index : Nat} {e : Entry}
    (h : s.entries.toList[index]? = some e) : (ofSet s).flagged index = e.chunk.isRuns := by
  cases hflags : (ofSet s).flags with
  | none =>
    have hno := isNone_flags_ofSet s
    rw [hflags, Option.isNone_none, eq_comm, Bool.not_eq_true'] at hno
    rw [flagged, hflags, Option.any_none, eq_comm, Bool.eq_false_iff]
    intro hruns
    rw [(hasRuns_iff s).2 ⟨e, List.mem_of_getElem? h, hruns⟩] at hno
    cases hno
  | some flags =>
    obtain ⟨-, rfl⟩ := flags_ofSet hflags
    rw [flagged, hflags, Option.any_some, Bytes.flag_pack, List.getD_eq_getElem?_getD,
      List.getElem?_map, h]
    rfl

theorem legal_ofSet (h : s.WellFormed) : (ofSet s).Legal := by
  have hcount : (ofSet s).items.length = s.entries.size := List.length_map _
  refine ⟨?_, fun flags hflags => ?_, fun i hi => ?_, ?_, ?_, fun offset hoffset => ?_,
    fun index i hi => ?_⟩
  · rw [hcount]
    exact h.valid.count_le
  · obtain ⟨hruns, rfl⟩ := flags_ofSet hflags
    obtain ⟨e, he, -⟩ := (hasRuns_iff s).1 hruns
    refine ⟨?_, ?_⟩
    · rw [hcount]
      exact List.length_pos_of_mem he
    · rw [Bytes.length_pack, List.length_map, hcount]
      rfl
  · obtain ⟨e, he, rfl⟩ := List.mem_map.1 hi
    exact ⟨(h.2 e he).1, h.valid.entry_size he⟩
  · rw [ofSet, List.map_map]
    exact h.1
  · rw [isNone_flags_ofSet, hcount]
    exact count_offsets_ofSet s
  · rw [ofSet] at hoffset
    dsimp only at hoffset
    split at hoffset
    · obtain ⟨x, -, rfl⟩ := List.mem_map.1 hoffset
      exact Nat.mod_lt _ (by decide)
    · cases hoffset
  · rw [ofSet, List.getElem?_map] at hi
    obtain ⟨e, he, rfl⟩ := Option.map_eq_some_iff.1 hi
    rw [flagged_ofSet s he]
    have hentry := h.2 e (List.mem_of_getElem? he)
    exact Payload.legal_ofChunk hentry.2.1 hentry.2.2

end Image

/-- Each way of reading takes what was written back to the set, entry by entry, and stops there. -/
theorem decodeWithRest_encode {s : IntSet} (h : s.WellFormed) (mode : DecodeMode)
    (rest : List UInt8) : decodeWithRest mode (s.encode ++ rest) = .ok (s, rest) := by
  rw [← Image.bytes_ofSet h.valid, (Image.legal_ofSet h).decodeWithRest, Image.toSet_ofSet h.valid]

theorem decodeWithRest_encode_mixed :
    let s : IntSet := ⟨#[⟨0, .array ⟨#[1, 5]⟩⟩, ⟨7, .runs ⟨#[⟨10, 14⟩]⟩⟩,
      ⟨9, (Chunk.runs ⟨#[⟨0, 5000⟩]⟩).toBlock⟩]⟩
    s.WellFormed ∧ decodeWithRest .slice (s.encode ++ [9]) = .ok (s, [9]) := by
  intro s
  have hruns : (Chunk.runs ⟨#[⟨0, 5000⟩]⟩).Valid := by decide
  obtain ⟨hvalid, hempty, hsize⟩ := hruns.toBlock
  have hlong : arrayLimit < (Chunk.runs ⟨#[⟨0, 5000⟩]⟩).toBlock.size := hsize.symm ▸ by decide
  have hs : s.WellFormed := ⟨by decide, List.forall_mem_cons.2 ⟨by decide, List.forall_mem_cons.2
    ⟨by decide, List.forall_mem_singleton.2 ⟨by decide, ⟨hvalid, hlong⟩, hempty⟩⟩⟩⟩
  exact ⟨hs, decodeWithRest_encode hs .slice [9]⟩

end ChunkedSet
