import ChunkedSet.Proofs.Layout

/-!
# Writing back what was read

The items of a legal image are determined by the set that it describes. Its flags and offsets are
redundant: where they say what a writer says, the image is that of the set, so that writing the set
gives the bytes that were read.
-/

namespace ChunkedSet

theorem Bytes.eq_of_flag {as bs : List UInt8} (hlength : as.length = bs.length)
    (h : ∀ i, flag as i = flag bs i) : as = bs :=
  toNat_inj hlength (Nat.eq_of_testBit_eq h)

namespace Payload.Legal

variable {flagged : Bool} {declared : Nat} {p : Payload}

theorem isRuns_eq (h : p.Legal flagged declared) : p.chunk.isRuns = flagged := by
  cases p with
  | runs pairs => exact h.1.symm
  | array values => exact h.1.symm
  | words list => exact h.1.symm

theorem ofChunk_chunk (h : p.Legal flagged declared) : ofChunk p.chunk = p := by
  cases p with
  | runs pairs =>
    have hpair : ∀ r ∈ pairs, ((Run.ofPair r).first, (Run.ofPair r).last - (Run.ofPair r).first) = r :=
      fun r _ => Prod.ext rfl (Nat.add_sub_cancel_left r.1 r.2)
    rw [chunk, ofChunk, RunList.toList, List.map_map]
    exact congrArg runs ((List.map_congr_left hpair).trans (List.map_id _))
  | array values => rfl
  | words list =>
    rw [chunk, ofChunk, Words.toList_ofList h.2.2.1]

end Payload.Legal

namespace Image

def place (m : Image) (index : Nat) : Nat :=
  (m.header ++ m.items.flatMap Item.description ++ m.offsets.flatMap (Bytes.ofNat 4) ++
    (m.items.take index).flatMap (·.payload.bytes)).length

/-- The redundant fields are as a writer leaves them: there are flags only if one of them is up,
none is up behind those of the items, and each offset is the place of its payload. -/
structure Exact (m : Image) : Prop where
  flags : ∀ bs ∈ m.flags, (∃ index < m.items.length, Bytes.flag bs index = true) ∧
    ∀ index, m.items.length ≤ index → Bytes.flag bs index = false
  offsets : ∀ index offset, m.offsets[index]? = some offset → offset = m.place index

variable {m : Image} {s : IntSet}

theorem entries_toSet (m : Image) : m.toSet.entries.toList = m.items.map Item.entry := rfl

theorem items_ofSet_toSet (h : m.Legal) : (ofSet m.toSet).items = m.items := by
  have hitem : ∀ i ∈ m.items,
      (⟨i.entry.key, i.entry.size, Payload.ofChunk i.entry.chunk⟩ : Item) = i := fun i hi => by
    obtain ⟨index, hindex⟩ := List.mem_iff_getElem?.1 hi
    have hlegal := h.payload index i hindex
    have hsize : i.entry.size = i.declared := hlegal.size_eq
    rw [hsize, Item.entry, hlegal.ofChunk_chunk]
  exact List.map_map.trans ((List.map_congr_left hitem).trans (List.map_id _))

theorem isRuns_eq_flagged (h : m.Legal) {index : Nat} {e : Entry}
    (he : m.toSet.entries.toList[index]? = some e) : e.chunk.isRuns = m.flagged index := by
  rw [entries_toSet, List.getElem?_map] at he
  obtain ⟨i, hi, rfl⟩ := Option.map_eq_some_iff.1 he
  exact (h.payload index i hi).isRuns_eq

theorem hasRuns_toSet (h : m.Legal) : (Header.ofSet m.toSet).hasRuns = true ↔
    ∃ index < m.items.length, m.flagged index = true := by
  rw [hasRuns_iff]
  constructor
  · intro hruns
    obtain ⟨e, he, hruns⟩ := hruns
    obtain ⟨index, hindex⟩ := List.mem_iff_getElem?.1 he
    obtain ⟨hlt, -⟩ := List.getElem?_eq_some_iff.1 hindex
    rw [entries_toSet, List.length_map] at hlt
    exact ⟨index, hlt, (isRuns_eq_flagged h hindex).symm.trans hruns⟩
  · intro hflag
    obtain ⟨index, hlt, hflag⟩ := hflag
    have hindex : m.toSet.entries.toList[index]? = some m.items[index].entry := by
      rw [entries_toSet, List.getElem?_map, List.getElem?_eq_getElem hlt]
      rfl
    exact ⟨_, List.mem_of_getElem? hindex, (isRuns_eq_flagged h hindex).trans hflag⟩

theorem flags_ofSet_toSet (h : m.Legal) (hexact : m.Exact) : (ofSet m.toSet).flags = m.flags := by
  cases hflags : m.flags with
  | none =>
    have hno : ¬(Header.ofSet m.toSet).hasRuns = true := fun hruns => by
      obtain ⟨index, -, hflag⟩ := (hasRuns_toSet h).1 hruns
      rw [flagged, hflags] at hflag
      cases hflag
    rw [ofSet]
    exact if_neg hno
  | some bs =>
    obtain ⟨⟨index, hlt, hflag⟩, hbehind⟩ := hexact.flags bs hflags
    have hflagged (index : Nat) : m.flagged index = Bytes.flag bs index := by
      rw [flagged, hflags]
      rfl
    have hruns : (Header.ofSet m.toSet).hasRuns = true :=
      (hasRuns_toSet h).2 ⟨index, hlt, (hflagged index).trans hflag⟩
    have hlength : (m.toSet.entries.toList.map (·.chunk.isRuns)).length = m.items.length := by
      rw [entries_toSet, List.length_map, List.length_map]
    have hpack : Bytes.pack (m.toSet.entries.toList.map (·.chunk.isRuns)) = bs := by
      refine Bytes.eq_of_flag ?_ fun i => ?_
      · rw [Bytes.length_pack, hlength, (h.flags bs hflags).2]
      · rw [Bytes.flag_pack, List.getD_eq_getElem?_getD, List.getElem?_map]
        cases hi : m.toSet.entries.toList[i]? with
        | some e => exact (isRuns_eq_flagged h hi).trans (hflagged i)
        | none =>
          have hle := List.getElem?_eq_none_iff.1 hi
          rw [entries_toSet, List.length_map] at hle
          exact (hbehind i hle).symm
    rw [ofSet]
    exact (if_pos hruns).trans (congrArg some hpack)

theorem place_congr {m' : Image} (hflags : m'.flags = m.flags) (hitems : m'.items = m.items)
    (hoffsets : m'.offsets.length = m.offsets.length) (index : Nat) :
    m'.place index = m.place index := by
  simp only [place, header, hflags, hitems, List.length_append, Bytes.length_flatMap_ofNat,
    hoffsets]

theorem place_ofSet (h : s.Valid) (index : Nat) : (ofSet s).place index = s.place index := by
  have hpayloads : ((ofSet s).items.take index).flatMap (·.payload.bytes) =
      (s.entries.toList.take index).flatMap (·.chunk.encode) := by
    rw [ofSet, ← List.map_take, List.flatMap_map]
    exact List.flatMap_congr fun e _ => Payload.bytes_ofChunk e.chunk
  have hhead : (ofSet s).header ++ (ofSet s).items.flatMap Item.description ++
      (ofSet s).offsets.flatMap (Bytes.ofNat 4) = s.preamble ++ s.offsetBytes := by
    rw [header_ofSet, description_ofSet h, offsets_ofSet]
    rfl
  rw [place, hhead, hpayloads, List.length_append, IntSet.length_head, IntSet.length_payloads,
    List.map_take]
  rfl

theorem getElem?_offsets_ofSet {index offset : Nat}
    (h : (ofSet s).offsets[index]? = some offset) : offset = s.place index % 4294967296 := by
  rw [ofSet] at h
  dsimp only at h
  split at h
  · rw [Entry.offsets_eq, List.map_map, List.getElem?_map] at h
    obtain ⟨i, hi, rfl⟩ := Option.map_eq_some_iff.1 h
    obtain ⟨-, rfl⟩ := List.getElem?_eq_some_iff.1 hi
    rw [List.getElem_range]
    rfl
  · cases h

theorem length_offsets_ofSet_toSet (h : m.Legal) (hflags : (ofSet m.toSet).flags = m.flags) :
    (ofSet m.toSet).offsets.length = m.offsets.length := by
  have hsize : m.toSet.entries.size = m.items.length := List.length_map _
  rw [count_offsets_ofSet, ← isNone_flags_ofSet, hflags, hsize, h.offsets]

theorem ofSet_toSet (h : m.Legal) (hexact : m.Exact) : ofSet m.toSet = m := by
  have hitems := items_ofSet_toSet h
  have hflags := flags_ofSet_toSet h hexact
  have hlength := length_offsets_ofSet_toSet h hflags
  have hoffsets : (ofSet m.toSet).offsets = m.offsets := by
    refine List.ext_getElem hlength fun index hleft hright => ?_
    have hset := getElem?_offsets_ofSet (List.getElem?_eq_getElem hleft)
    have hplace := hexact.offsets index _ (List.getElem?_eq_getElem hright)
    have hlt := h.offset_lt _ (List.getElem_mem hright)
    rw [← place_congr hflags hitems hlength, place_ofSet h.wellFormed.valid] at hplace
    rw [hset, ← hplace, Nat.mod_eq_of_lt hlt]
  generalize ofSet m.toSet = m' at hitems hflags hoffsets
  obtain ⟨flags, items, offsets⟩ := m
  obtain ⟨flags', items', offsets'⟩ := m'
  cases hitems
  cases hflags
  cases hoffsets
  rfl

end Image

/-- A set that was read from an exact image is written as the bytes it was read from. -/
theorem encode_eq_take {bytes rest : List UInt8} {s : IntSet}
    (h : decodeWithRest .reader bytes = .ok (s, rest)) :
    (∃ m : Image, m.Legal ∧ bytes = m.bytes ++ rest) ∧
      ∀ m : Image, m.Legal → bytes = m.bytes ++ rest → m.Exact →
        s.encode = bytes.take (bytes.length - rest.length) := by
  constructor
  · obtain ⟨m, hlegal, hbytes, -⟩ := (decodeWithRest_iff rfl).1 h
    exact ⟨m, hlegal, hbytes⟩
  · rintro m hlegal rfl hexact
    rw [hlegal.decodeWithRest] at h
    cases h
    rw [← Image.bytes_ofSet hlegal.wellFormed.valid, Image.ofSet_toSet hlegal hexact,
      List.length_append, Nat.add_sub_cancel, List.take_left]

/-- Four entries, so that there are flags and offsets. -/
theorem encode_eq_take_offsets :
    let m : Image := ⟨some [2], [⟨0, 1, .array [9]⟩, ⟨1, 5, .runs [(10, 4)]⟩, ⟨2, 1, .array [0]⟩,
      ⟨65535, 1, .array [65535]⟩], [37, 39, 45, 47]⟩
    decodeWithRest .reader (m.bytes ++ [255]) = .ok (m.toSet, [255]) ∧ m.Legal ∧ m.Exact ∧
      m.toSet.encode = (m.bytes ++ [255]).take ((m.bytes ++ [255]).length - 1) := by
  intro m
  have hlegal : m.Legal := by
    refine ⟨by decide, fun flags hflags => ?_, by decide, by decide, by decide, by decide, ?_⟩
    · cases hflags
      decide
    · intro index i hi
      match index with
      | 0 | 1 | 2 | 3 =>
        cases hi
        decide
      | index + 4 => cases hi
  have hexact : m.Exact := by
    refine ⟨fun flags hflags => ?_, fun index offset hoffset => ?_⟩
    · cases hflags
      refine ⟨⟨1, by decide, by decide⟩, fun index hindex => ?_⟩
      exact Nat.testBit_lt_two_pow (Nat.lt_of_lt_of_le (by decide)
        (Nat.pow_le_pow_right (by decide) hindex) : (2 : Nat) < 2 ^ index)
    · match index with
      | 0 | 1 | 2 | 3 =>
        cases hoffset
        rfl
      | index + 4 => cases hoffset
  have hread := hlegal.decodeWithRest .reader [255]
  exact ⟨hread, hlegal, hexact, (encode_eq_take hread).2 m hlegal rfl hexact⟩

end ChunkedSet
