import ChunkedSet.Proofs.ReadChunk

/-!
# Reading sets

Checked reading accepts the bytes of legal images and returns the sets that they describe. Since
legal images describe well-formed sets, no input makes it return anything else.
-/

namespace ChunkedSet

namespace Item

structure Follow (flagged : Nat → Bool) (before : Array Entry) (items : List Item) : Prop where
  description : ∀ i ∈ items, i.key < 65536 ∧ 1 ≤ i.declared ∧ i.declared ≤ 65536
  keys : (items.map Item.key).Pairwise (· < ·)
  above : ∀ e ∈ before.back?, ∀ i ∈ items, e.key < i.key
  payload : ∀ (index : Nat) (i : Item), items[index]? = some i →
    i.payload.Legal (flagged (before.size + index)) i.declared

variable {flagged : Nat → Bool} {before : Array Entry} {i : Item} {items : List Item}

theorem follow_nil : Follow flagged before [] :=
  ⟨nofun, .nil, fun _ _ => nofun, nofun⟩

theorem follow_cons : Follow flagged before (i :: items) ↔
    (i.key < 65536 ∧ 1 ≤ i.declared ∧ i.declared ≤ 65536) ∧
      (∀ e ∈ before.back?, e.key < i.key) ∧ i.payload.Legal (flagged before.size) i.declared ∧
      Follow flagged (before.push i.entry) items := by
  have hsize (index : Nat) : (before.push i.entry).size + index = before.size + (index + 1) := by
    rw [Array.size_push]
    omega
  constructor
  · intro h
    obtain ⟨hkey, hkeys⟩ := List.pairwise_cons.1 h.keys
    refine ⟨h.description i List.mem_cons_self, fun e he => h.above e he i List.mem_cons_self,
      h.payload 0 i rfl, fun j hj => h.description j (List.mem_cons_of_mem i hj), hkeys, ?_, ?_⟩
    · intro e he j hj
      rw [Array.back?_push] at he
      cases he
      exact hkey j.key (List.mem_map_of_mem hj)
    · intro index j hj
      rw [hsize]
      exact h.payload (index + 1) j hj
  · intro h
    obtain ⟨hdescription, habove, hpayload, hrest⟩ := h
    have hkey : ∀ j ∈ items, i.key < j.key := hrest.above i.entry Array.back?_push
    refine ⟨List.forall_mem_cons.2 ⟨hdescription, hrest.description⟩, ?_, ?_, ?_⟩
    · refine List.pairwise_cons.2 ⟨fun k hk => ?_, hrest.keys⟩
      obtain ⟨j, hj, rfl⟩ := List.mem_map.1 hk
      exact hkey j hj
    · intro e he j hj
      rcases List.mem_cons.1 hj with rfl | hj
      · exact habove e he
      · exact Nat.lt_trans (habove e he) (hkey j hj)
    · intro index j hj
      cases index with
      | zero =>
        cases hj
        exact hpayload
      | succ index =>
        rw [← hsize]
        exact hrest.payload index j hj

end Item

namespace DecodeState

variable {checked : Bool} {flags : Array UInt8} {frame : Buffer} {l : Ledger} {n : Nat}
  {d : DecodeState}

theorem description?_append {key declared : Nat} (hkey : key < 65536) (hpos : 1 ≤ declared)
    (hle : declared ≤ 65536) (rest : List UInt8) (entries : Array Entry) (buffers : Array Buffer)
    (source : Source) :
    description? ⟨Bytes.ofNat 2 key ++ Bytes.ofNat 2 (declared - 1) ++ rest, entries, buffers,
      source⟩ = some ((key, declared), rest) := by
  change some ((Bytes.toNat (Bytes.ofNat 2 key),
    Bytes.toNat (Bytes.ofNat 2 (declared - 1)) + 1), rest) = _
  rw [Bytes.toNat_ofNat_of_lt hkey, Bytes.toNat_ofNat_of_lt (by omega), Nat.sub_add_cancel hpos]

theorem exists_description {descriptions : List UInt8} (h : descriptions.length = 4 * (n + 1)) :
    ∃ key declared rest, key < 65536 ∧ 1 ≤ declared ∧ declared ≤ 65536 ∧
      rest.length = 4 * n ∧
      descriptions = Bytes.ofNat 2 key ++ Bytes.ofNat 2 (declared - 1) ++ rest := by
  have hlength : descriptions.length = 2 * (2 * n + 1 + 1) := by omega
  obtain ⟨numbers, hcount, hlt, rfl⟩ := Bytes.exists_numbers 2 (2 * n + 1 + 1) hlength
  obtain ⟨key, numbers, rfl⟩ := List.exists_cons_of_length_eq_add_one hcount
  obtain ⟨hkey, hlt⟩ := List.forall_mem_cons.1 hlt
  obtain ⟨less, numbers, rfl⟩ := List.exists_cons_of_length_eq_add_one (Nat.succ.inj hcount)
  obtain ⟨hless, -⟩ := List.forall_mem_cons.1 hlt
  refine ⟨key, less + 1, numbers.flatMap (Bytes.ofNat 2), hkey, Nat.le_add_left 1 less, hless,
    ?_, ?_⟩
  · simp only [List.flatMap_cons, List.length_append, Bytes.length_ofNat] at h
    omega
  · simp only [List.flatMap_cons, List.append_assoc, Nat.add_sub_cancel]

theorem any_back_iff {entries : Array Entry} {key : Nat} :
    (entries.back?.any fun e => decide (key ≤ e.key)) = true ↔
      ¬∀ e ∈ entries.back?, e.key < key := by
  rw [Option.any_eq_true]
  push Not
  simp only [decide_eq_true_eq, Option.mem_def]

section

variable {key declared : Nat} {rest : List UInt8}
  (hdescription : d.description? = some ((key, declared), rest))

include hdescription

theorem readEntries_sorted (hback : ∀ e ∈ d.entries.back?, e.key < key) {r : ReadChunk}
    (hread : (l.readChunk checked (Bytes.bitAt flags d.entries.size) key declared d.source).1 =
      .ok r) :
    readEntries checked flags frame (n + 1) d l =
      readEntries checked flags frame n
        ⟨rest, d.entries.push ⟨key, r.chunk⟩, d.buffers.push r.buffer, r.source⟩
        (l.readChunk checked (Bytes.bitAt flags d.entries.size) key declared d.source).2 := by
  rw [readEntries, hdescription]
  dsimp only
  rw [if_neg fun hany => any_back_iff.1 hany hback, hread]

theorem readEntries_refused (hback : ∀ e ∈ d.entries.back?, e.key < key) {e : DecodeError}
    (hread : (l.readChunk checked (Bytes.bitAt flags d.entries.size) key declared d.source).1 =
      .error e) :
    (readEntries checked flags frame (n + 1) d l).1 = .error e := by
  rw [readEntries, hdescription]
  dsimp only
  rw [if_neg fun hany => any_back_iff.1 hany hback, hread]

theorem readEntries_eq_bind (hback : ∀ e ∈ d.entries.back?, e.key < key) :
    (readEntries checked flags frame (n + 1) d l).1 =
      (l.readChunk checked (Bytes.bitAt flags d.entries.size) key declared d.source).1 >>= fun r =>
        (readEntries checked flags frame n
          ⟨rest, d.entries.push ⟨key, r.chunk⟩, d.buffers.push r.buffer, r.source⟩
          (l.readChunk checked (Bytes.bitAt flags d.entries.size) key declared d.source).2).1 := by
  cases hread : (l.readChunk checked (Bytes.bitAt flags d.entries.size) key declared
    d.source).1 with
  | error e => exact readEntries_refused hdescription hback hread
  | ok r =>
    rw [readEntries_sorted hdescription hback hread]
    rfl

theorem readEntries_unsorted (hback : ¬∀ e ∈ d.entries.back?, e.key < key) :
    (readEntries checked flags frame (n + 1) d l).1 = .error (.unsortedKeys d.entries.size) := by
  rw [readEntries, hdescription]
  dsimp only
  rw [if_pos (any_back_iff.2 hback)]

end

variable {sized : Bool} {bytes : List UInt8} {s : Source}

/-- What is read stands at the front, and it follows the entries before it if it was checked. -/
theorem exists_items {descriptions : List UInt8} {entries : Array Entry} {buffers : Array Buffer}
    {h : HeldSet} (hlength : descriptions.length = 4 * n)
    (hread : (readEntries checked flags frame n
      ⟨descriptions, entries, buffers, .reading sized 0 bytes⟩ l).1 = .ok (h, s)) :
    ∃ items : List Item, items.length = n ∧ descriptions = items.flatMap Item.description ∧
      h.set = ⟨entries ++ (items.map Item.entry).toArray⟩ ∧
      (∀ (index : Nat) (i : Item), items[index]? = some i →
        i.payload.Shaped (Bytes.flag flags.toList (entries.size + index)) i.declared) ∧
      (checked = true → Item.Follow (Bytes.flag flags.toList) entries items) ∧
      ∃ rest, bytes = items.flatMap (·.payload.bytes) ++ rest ∧ s = .reading sized 0 rest := by
  induction n generalizing descriptions entries buffers bytes l with
  | zero =>
    cases hread
    exact ⟨[], rfl, List.length_eq_zero_iff.1 hlength, by simp, nofun,
      fun _ => Item.follow_nil, bytes, rfl, rfl⟩
  | succ n ih =>
    obtain ⟨key, declared, rest, hkey, hpos, hle, hrest, rfl⟩ := exists_description hlength
    have hdescription := description?_append hkey hpos hle rest entries buffers
      (.reading sized 0 bytes)
    have hflag (index : Nat) : Bytes.flag flags.toList index = Bytes.bitAt flags index :=
      (Bytes.bitAt_eq_flag flags.toList index).symm
    by_cases hback : ∀ e ∈ entries.back?, e.key < key
    · rw [readEntries_eq_bind hdescription hback, bind_eq_ok_iff] at hread
      obtain ⟨r, hchunk, hread⟩ := hread
      obtain ⟨p, hshaped, hlegal, hc, rest, rfl, hsource⟩ :=
        Source.exists_payload (Ledger.payload_of_readChunk hchunk)
      rw [← hflag] at hshaped hlegal
      rw [hc, hsource] at hread
      obtain ⟨items, rfl, rfl, hset, hitems, hfollow, rest, rfl, rfl⟩ := ih hrest hread
      refine ⟨⟨key, declared, p⟩ :: items, rfl, rfl, ?_, fun index i hi => ?_, fun hchecked => ?_,
        rest, ?_, rfl⟩
      · rw [hset]
        simp [Item.entry]
      · cases index with
        | zero =>
          cases hi
          exact hshaped
        | succ index =>
          have hrest := hitems index i hi
          rw [Array.size_push, Nat.add_assoc, Nat.add_comm 1] at hrest
          exact hrest
      · exact Item.follow_cons.2 ⟨⟨hkey, hpos, hle⟩, hback, hlegal hchecked, hfollow hchecked⟩
      · rw [List.flatMap_cons, List.append_assoc]
    · rw [readEntries_unsorted hdescription hback] at hread
      cases hread

theorem readEntries_follow {items : List Item} {entries : Array Entry} {buffers : Array Buffer}
    (hfollow : Item.Follow (Bytes.flag flags.toList) entries items) (sized : Bool)
    (rest : List UInt8) :
    ∃ h, (readEntries true flags frame items.length ⟨items.flatMap Item.description, entries,
        buffers, .reading sized 0 (items.flatMap (·.payload.bytes) ++ rest)⟩ l).1 =
          .ok (h, .reading sized 0 rest) ∧
      h.set = ⟨entries ++ (items.map Item.entry).toArray⟩ := by
  induction items generalizing entries buffers l with
  | nil => exact ⟨_, rfl, by simp⟩
  | cons i items ih =>
    obtain ⟨⟨hkey, hpos, hle⟩, hback, hlegal, hfollow⟩ := Item.follow_cons.1 hfollow
    have hflag : Bytes.flag flags.toList entries.size = Bytes.bitAt flags entries.size :=
      (Bytes.bitAt_eq_flag flags.toList entries.size).symm
    rw [hflag] at hlegal
    simp only [List.flatMap_cons, List.append_assoc, List.length_cons]
    obtain ⟨buffer, hchunk⟩ := Ledger.readChunk_append hlegal l sized i.key
      (items.flatMap (·.payload.bytes) ++ rest)
    have hdescription := description?_append hkey hpos hle (items.flatMap Item.description)
      entries buffers
      (.reading sized 0 (i.payload.bytes ++ (items.flatMap (·.payload.bytes) ++ rest)))
    rw [Item.description, readEntries_sorted hdescription hback hchunk]
    obtain ⟨h, hread, hset⟩ := ih hfollow
    refine ⟨h, hread, hset.trans ?_⟩
    simp [Item.entry]

theorem readEntries_unchecked : Faulted (readEntries true flags frame n d l).1 ∨
    readEntries false flags frame n d l = readEntries true flags frame n d l := by
  induction n generalizing d l with
  | zero => exact .inr rfl
  | succ n ih =>
    cases hdescription : d.description? with
    | none =>
      right
      rw [readEntries, readEntries, hdescription]
    | some r =>
      obtain ⟨⟨key, declared⟩, rest⟩ := r
      by_cases hback : ∀ e ∈ d.entries.back?, e.key < key
      · rcases l.readChunk_unchecked (Bytes.bitAt flags d.entries.size) key declared d.source with
          hfault | hsame
        · obtain ⟨e, hchunk, he⟩ := hfault
          exact .inl ⟨e, readEntries_refused hdescription hback hchunk, he⟩
        · cases hchunk : (l.readChunk true (Bytes.bitAt flags d.entries.size) key declared
            d.source).1 with
          | error e =>
            right
            rw [readEntries, readEntries, hdescription]
            dsimp only
            rw [hsame, if_neg fun hany => any_back_iff.1 hany hback, hchunk]
          | ok r =>
            rw [readEntries_sorted hdescription hback hchunk,
              readEntries_sorted hdescription hback (by rw [hsame, hchunk]), hsame]
            exact ih
      · right
        rw [readEntries, readEntries, hdescription]
        simp only [if_pos (any_back_iff.2 hback)]

end DecodeState

/-! Whole sets. -/

namespace Image

def preamble (m : Image) : Preamble :=
  ⟨⟨m.items.length, m.flags.isSome⟩, (m.flags.getD []).toArray, m.items.flatMap Item.description⟩

theorem bytes_eq (m : Image) :
    m.bytes = m.preamble.bytes m.offsets ++ m.items.flatMap (·.payload.bytes) := by
  obtain ⟨flags, items, offsets⟩ := m
  cases flags with
  | none => simp [bytes, header, preamble, Preamble.bytes, Header.cookieBytes]
  | some flags => simp [bytes, header, preamble, Preamble.bytes, Header.cookieBytes]

theorem flagged_eq (m : Image) : m.flagged = Bytes.flag m.preamble.flags.toList := by
  funext index
  obtain ⟨flags, items, offsets⟩ := m
  cases flags with
  | none => exact (Bytes.flag_nil index).symm
  | some flags => rfl

theorem hasOffsets_iff (m : Image) :
    m.preamble.header.hasOffsets = true ↔ m.flags.isNone ∨ 4 ≤ m.items.length := by
  obtain ⟨flags, items, offsets⟩ := m
  cases flags with
  | none => simp [preamble, Header.hasOffsets]
  | some flags =>
    simp only [preamble, Header.hasOffsets, Option.isSome_some, Option.isNone_some, Bool.not_true,
      Bool.false_or, Bool.false_eq_true, false_or]
    exact decide_eq_true_iff

theorem legal_iff (m : Image) :
    m.Legal ↔ m.preamble.Legal m.offsets ∧ Item.Follow m.flagged #[] m.items := by
  constructor
  · intro h
    refine ⟨⟨⟨h.count_le, ?_⟩, ?_, Item.length_descriptions m.items, ?_, h.offset_lt⟩,
      h.description, h.keys, fun _ => nofun, ?_⟩
    · intro hsome
      obtain ⟨flags, hflags⟩ := Option.isSome_iff_exists.1 hsome
      exact (h.flags flags hflags).1
    · obtain ⟨flags, items, offsets⟩ := m
      cases flags with
      | none => rfl
      | some flags => exact (h.flags flags rfl).2
    · rw [h.offsets]
      exact if_congr (hasOffsets_iff m).symm rfl rfl
    · intro index i hi
      rw [Array.size_empty, Nat.zero_add]
      exact h.payload index i hi
  · intro h
    obtain ⟨hpreamble, hfollow⟩ := h
    refine ⟨hpreamble.header.1, ?_, hfollow.description, hfollow.keys, ?_, hpreamble.offset_lt, ?_⟩
    · intro flags hflags
      obtain ⟨_, items, offsets⟩ := m
      cases hflags
      exact ⟨hpreamble.header.2 rfl, hpreamble.flags⟩
    · rw [hpreamble.offset_count]
      exact if_congr (hasOffsets_iff m) rfl rfl
    · intro index i hi
      have hlegal := hfollow.payload index i hi
      rw [Array.size_empty, Nat.zero_add] at hlegal
      exact hlegal

/-- An image whose chunks need not keep their order nor have the declared sizes. -/
structure Readable (m : Image) : Prop where
  preamble : m.preamble.Legal m.offsets
  payload : ∀ (index : Nat) (i : Item), m.items[index]? = some i →
    i.payload.Shaped (m.flagged index) i.declared

theorem exists_preamble_eq {p : Preamble} {offsets : List Nat} {items : List Item}
    (hlegal : p.Legal offsets) (hcount : items.length = p.header.count)
    (hdescriptions : p.descriptions = items.flatMap Item.description) :
    ∃ m : Image, m.preamble = p ∧ m.items = items ∧ m.offsets = offsets := by
  obtain ⟨⟨count, hasRuns⟩, flags, descriptions⟩ := p
  dsimp only at hcount hdescriptions
  subst hcount hdescriptions
  cases hasRuns with
  | true => exact ⟨⟨some flags.toList, items, offsets⟩, rfl, rfl, rfl⟩
  | false =>
    have hflags : flags = #[] := Array.size_eq_zero_iff.1 hlegal.flags
    subst hflags
    exact ⟨⟨none, items, offsets⟩, rfl, rfl, rfl⟩

end Image

theorem decodeWithRest_eq_ok_iff {mode : DecodeMode} {bytes rest : List UInt8} {set : IntSet} :
    decodeWithRest mode bytes = .ok (set, rest) ↔
      ∃ h s, (Ledger.empty.decode mode bytes).1 = .ok (h, s) ∧ h.set = set ∧ s.bytes = rest := by
  rw [decodeWithRest]
  split
  · rename_i h s hdecode
    simp [hdecode]
  · rename_i e hdecode
    simp [hdecode]

theorem decode_eq_ok_iff {mode : DecodeMode} {bytes : List UInt8} {s : IntSet} :
    decode mode bytes = .ok s ↔ ∃ rest, decodeWithRest mode bytes = .ok (s, rest) := by
  rw [decode]
  cases decodeWithRest mode bytes with
  | error e => simp [Except.map]
  | ok r => simp [Except.map, Prod.ext_iff]

theorem exists_image {mode : DecodeMode} {bytes rest : List UInt8} {set : IntSet}
    (h : decodeWithRest mode bytes = .ok (set, rest)) :
    ∃ m : Image, m.Readable ∧ (mode.isChecked = true → m.Legal) ∧ bytes = m.bytes ++ rest ∧
      set = m.toSet := by
  obtain ⟨held, s, hdecode, rfl, rfl⟩ := decodeWithRest_eq_ok_iff.1 h
  rw [Ledger.decode, Source.ofBytes_eq] at hdecode
  split at hdecode
  · cases hdecode
  · rename_i p s' hpreamble
    obtain ⟨offsets, hlegal, rest, rfl, rfl⟩ := Source.preamble_iff.1 hpreamble
    obtain ⟨items, hcount, hdescriptions, hset, hitems, hfollow, rest, rfl, rfl⟩ :=
      DecodeState.exists_items hlegal.descriptions hdecode
    obtain ⟨m, rfl, rfl, rfl⟩ := Image.exists_preamble_eq hlegal hcount hdescriptions
    rw [← m.flagged_eq] at hfollow hitems
    refine ⟨m, ⟨hlegal, fun index i hi => ?_⟩,
      fun hchecked => m.legal_iff.2 ⟨hlegal, hfollow hchecked⟩, ?_, ?_⟩
    · have hshaped := hitems index i hi
      rwa [Array.size_empty, Nat.zero_add] at hshaped
    · rw [m.bytes_eq, List.append_assoc]
      rfl
    · rw [hset, Image.toSet, Array.empty_append]

theorem decodeWithRest_iff {mode : DecodeMode} (hmode : mode.isChecked = true)
    {bytes rest : List UInt8} {set : IntSet} :
    decodeWithRest mode bytes = .ok (set, rest) ↔
      ∃ m : Image, m.Legal ∧ bytes = m.bytes ++ rest ∧ set = m.toSet := by
  constructor
  · intro hread
    obtain ⟨m, -, hlegal, hbytes, hset⟩ := exists_image hread
    exact ⟨m, hlegal hmode, hbytes, hset⟩
  · intro hread
    obtain ⟨m, hlegal, rfl, rfl⟩ := hread
    obtain ⟨hlegal, hfollow⟩ := m.legal_iff.1 hlegal
    rw [m.flagged_eq] at hfollow
    rw [decodeWithRest_eq_ok_iff, Ledger.decode, Source.ofBytes_eq, hmode, m.bytes_eq,
      List.append_assoc, Source.preamble_iff.2 ⟨m.offsets, hlegal, _, rfl, rfl⟩]
    obtain ⟨h, hentries, hset⟩ := DecodeState.readEntries_follow hfollow (mode == .slice) rest
    rw [Array.empty_append] at hset
    exact ⟨h, _, hentries, hset, rfl⟩

/-- Reading without checks agrees with checked reading unless that finds fault with the content. -/
theorem decodeWithRest_unchecked (bytes : List UInt8) : Faulted (decodeWithRest .reader bytes) ∨
    decodeWithRest .unchecked bytes = decodeWithRest .reader bytes := by
  have hunsized : (DecodeMode.unchecked == .slice) = (DecodeMode.reader == .slice) := rfl
  have hdecode : Faulted (Ledger.empty.decode .reader bytes).1 ∨
      Ledger.empty.decode .unchecked bytes = Ledger.empty.decode .reader bytes := by
    rw [Ledger.decode, Ledger.decode, Source.ofBytes_eq, Source.ofBytes_eq, hunsized]
    split
    · exact .inr rfl
    · exact DecodeState.readEntries_unchecked
  rw [decodeWithRest, decodeWithRest]
  rcases hdecode with hfault | hsame
  · obtain ⟨e, herror, he⟩ := hfault
    rw [herror]
    exact .inl ⟨e, rfl, he⟩
  · rw [hsame]
    exact .inr rfl

theorem decodeWithRest_unchecked_of_ok {bytes : List UInt8} {r : IntSet × List UInt8}
    (h : decodeWithRest .reader bytes = .ok r) : decodeWithRest .unchecked bytes = .ok r := by
  rcases decodeWithRest_unchecked bytes with hfault | hsame
  · obtain ⟨e, herror, -⟩ := hfault
    rw [herror] at h
    cases h
  · rw [hsame, h]

theorem Image.Legal.decodeWithRest {m : Image} (h : m.Legal) (mode : DecodeMode)
    (rest : List UInt8) : decodeWithRest mode (m.bytes ++ rest) = .ok (m.toSet, rest) := by
  cases mode with
  | reader => exact (decodeWithRest_iff rfl).2 ⟨m, h, rfl, rfl⟩
  | slice => exact (decodeWithRest_iff rfl).2 ⟨m, h, rfl, rfl⟩
  | unchecked =>
    exact decodeWithRest_unchecked_of_ok ((decodeWithRest_iff rfl).2 ⟨m, h, rfl, rfl⟩)

theorem wellFormed_of_decode {mode : DecodeMode} (hmode : mode.isChecked = true)
    {bytes : List UInt8} {s : IntSet} (h : decode mode bytes = .ok s) : s.WellFormed := by
  obtain ⟨rest, hread⟩ := decode_eq_ok_iff.1 h
  obtain ⟨m, hlegal, -, rfl⟩ := (decodeWithRest_iff hmode).1 hread
  exact hlegal.wellFormed

/-- Reading succeeds exactly on inputs that begin with the bytes of a legal image, returns the
set of that image and stops behind it; and whatever it returns is well formed. -/
theorem decode_reader_correct (bytes : List UInt8) :
    ((∃ s, decode .reader bytes = .ok s) ↔ ∃ m : Image, m.Legal ∧ m.bytes <+: bytes) ∧
      (∀ (m : Image) (rest : List UInt8), m.Legal → bytes = m.bytes ++ rest →
        decodeWithRest .reader bytes = .ok (m.toSet, rest)) ∧
      ∀ s, decode .reader bytes = .ok s → s.WellFormed := by
  refine ⟨⟨fun h => ?_, fun h => ?_⟩, fun m rest hlegal hbytes => ?_, fun s hs => ?_⟩
  · obtain ⟨s, hs⟩ := h
    obtain ⟨rest, hread⟩ := decode_eq_ok_iff.1 hs
    obtain ⟨m, hlegal, rfl, -⟩ := (decodeWithRest_iff rfl).1 hread
    exact ⟨m, hlegal, rest, rfl⟩
  · obtain ⟨m, hlegal, rest, rfl⟩ := h
    exact ⟨m.toSet, decode_eq_ok_iff.2 ⟨rest, hlegal.decodeWithRest .reader rest⟩⟩
  · rw [hbytes]
    exact hlegal.decodeWithRest .reader rest
  · exact wellFormed_of_decode rfl hs

theorem decode_reader_correct_mixed :
    (⟨some [1], [⟨0, 5, .runs [(10, 4)]⟩, ⟨3, 2, .array [1, 7]⟩], []⟩ : Image).Legal ∧
      decodeWithRest .reader [59, 48, 1, 0, 1, 0, 0, 4, 0, 3, 0, 1, 0, 1, 0, 10, 0, 4, 0, 1, 0, 7,
          0, 255] =
        .ok (⟨#[⟨0, .runs ⟨#[⟨10, 14⟩]⟩⟩, ⟨3, .array ⟨#[1, 7]⟩⟩]⟩, [255]) := by
  have hlegal :
      (⟨some [1], [⟨0, 5, .runs [(10, 4)]⟩, ⟨3, 2, .array [1, 7]⟩], []⟩ : Image).Legal := by
    refine ⟨by decide, fun flags hflags => ?_, by decide, by decide, by decide, nofun, ?_⟩
    · cases hflags
      decide
    · intro index i hi
      match index with
      | 0 | 1 =>
        cases hi
        decide
      | index + 2 => cases hi
  exact ⟨hlegal, (decode_reader_correct _).2.1 _ [255] hlegal rfl⟩

end ChunkedSet
