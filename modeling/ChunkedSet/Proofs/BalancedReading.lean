import ChunkedSet.Proofs.UncheckedReading

/-!
# Balanced reading

Reading asks an allocator for the buffers of a set, whatever the allocator is. If the input is
refused, the calls are those that hand out some buffers followed by those that give back the same
buffers; otherwise they hand out the buffers of the set, and nothing has come back.
-/

namespace ChunkedSet

/-- Hands out buffers and takes them back. What it keeps of that is its own affair: the state may be
a ledger, or a record of all calls. -/
structure Allocator (σ : Type) where
  allocate : σ → Request → Buffer × σ
  release : σ → Buffer → σ

def IntSet.requests (s : IntSet) : List Request :=
  .vector 8 s.entries.size :: s.entries.toList.map fun e => HeldSet.request e.chunk

def DecodeState.requests (d : DecodeState) (n : Nat) : List Request :=
  .vector 8 (d.entries.size + n) :: d.entries.toList.map fun e => HeldSet.request e.chunk

namespace Allocator

variable {σ : Type} (A : Allocator σ)

def allocateAll (s : σ) : List Request → List Buffer × σ
  | [] => ([], s)
  | r :: requests =>
    let (b, s) := A.allocate s r
    let (bs, s) := allocateAll s requests
    (b :: bs, s)

def releaseAll (s : σ) (bs : List Buffer) : σ := bs.foldl A.release s

/-! Reading with any allocator. -/

def readInto (s : σ) (request : Request) (content : Except DecodeError (Chunk × Source)) :
    Except DecodeError ReadChunk × σ :=
  let (buffer, s) := A.allocate s request
  match content with
  | .ok (chunk, source) => (.ok ⟨chunk, buffer, source⟩, s)
  | .error e => (.error e, A.release s buffer)

def readChunk (s : σ) (checked isRuns : Bool) (key declared : Nat) (source : Source) :
    Except DecodeError ReadChunk × σ :=
  if isRuns then
    match source.runCount key with
    | .error e => (.error e, s)
    | .ok (count, source) =>
      A.readInto s (.vector 2 count) (source.runChunk checked key declared count)
  else if declared ≤ arrayLimit then
    match source.reserve (arrayBytes declared) with
    | .error e => (.error e, s)
    | .ok source => A.readInto s (.vector 2 declared) (source.arrayChunk checked key declared)
  else
    match source.reserve blockBytes with
    | .error e => (.error e, s)
    | .ok source => A.readInto s .words (source.blockChunk checked key declared)

def readEntry (s : σ) (checked : Bool) (flags : Array UInt8) (d : DecodeState)
    (key declared : Nat) : Except DecodeError ReadChunk × σ :=
  if d.entries.back?.any fun e => decide (key ≤ e.key) then
    (.error (.unsortedKeys d.entries.size), s)
  else A.readChunk s checked (Bytes.bitAt flags d.entries.size) key declared d.source

def readEntries (checked : Bool) (flags : Array UInt8) (frame : Buffer) :
    Nat → DecodeState → σ → Except DecodeError (HeldSet × Source) × σ
  | 0, d, s => (.ok (⟨⟨d.entries⟩, frame, d.buffers⟩, d.source), s)
  | n + 1, d, s =>
    match d.description? with
    | none => (.ok (⟨⟨d.entries⟩, frame, d.buffers⟩, d.source), s)
    | some ((key, declared), descriptions) =>
      let (read, s) := A.readEntry s checked flags d key declared
      match read with
      | .ok r =>
        readEntries checked flags frame n
          ⟨descriptions, d.entries.push ⟨key, r.chunk⟩, d.buffers.push r.buffer, r.source⟩ s
      | .error e => (.error e, A.release (A.releaseAll s d.buffers.toList) frame)

def decode (s : σ) (mode : DecodeMode) (bytes : List UInt8) :
    Except DecodeError (HeldSet × Source) × σ :=
  match (Source.ofBytes mode bytes).preamble with
  | .error e => (.error e, s)
  | .ok (p, source) =>
    let (frame, s) := A.allocate s (.vector 8 p.header.count)
    A.readEntries mode.isChecked p.flags frame p.header.count ⟨p.descriptions, #[], #[], source⟩ s

end Allocator

/-! A chunk that was read fills the buffer that was asked for. -/

namespace Source

variable {s s' : Source} {checked : Bool} {key declared n : Nat} {c : Chunk}

theorem size_runs {out runs : Array Run} (h : Source.runs key n s out = .ok (runs, s')) :
    runs.size = out.size + n := by
  induction n generalizing s out with
  | zero =>
    cases h
    rfl
  | succ n ih =>
    rw [Source.runs, bind_eq_ok_iff] at h
    obtain ⟨⟨first, s₁⟩, -, h⟩ := h
    obtain ⟨⟨length, s₂⟩, -, h⟩ := bind_eq_ok_iff.1 h
    dsimp only at h
    split at h
    · cases h
    · rw [ih h, Array.size_push, Nat.add_assoc, Nat.add_comm 1]

theorem request_runChunk (h : s.runChunk checked key declared n = .ok (c, s')) :
    HeldSet.request c = .vector 2 n := by
  obtain ⟨⟨runs, s₁⟩, hruns, h⟩ := bind_eq_ok_iff.1 h
  have hsize := size_runs hruns
  rw [Array.size_empty, Nat.zero_add] at hsize
  have hchunk : c = .runs ⟨runs⟩ := by
    dsimp only at h
    split at h
    · split at h
      · cases h
      · split at h
        · cases h
          rfl
        · cases h
    · cases h
      rfl
  rw [hchunk, HeldSet.request, RunList.runCount, hsize]

theorem length_take {head : List UInt8} (h : s.take n = .ok (head, s')) : head.length = n := by
  rw [take] at h
  dsimp only at h
  split at h
  · rename_i hlength
    cases h
    exact hlength
  · cases h

theorem request_arrayChunk (h : s.arrayChunk checked key declared = .ok (c, s')) :
    HeldSet.request c = .vector 2 declared := by
  obtain ⟨⟨head, s₁⟩, htake, h⟩ := bind_eq_ok_iff.1 h
  obtain ⟨values, hcount, hlt, rfl⟩ := Bytes.exists_numbers 2 declared (length_take htake)
  have hchunk : c = .array ⟨values.toArray⟩ := by
    dsimp only at h
    rw [toNats_flatMap hlt, Array.empty_append] at h
    split at h
    · split at h
      · cases h
      · cases h
        rfl
    · cases h
      rfl
  rw [hchunk, HeldSet.request, SortedArray.size, List.size_toArray, hcount]

theorem request_blockChunk (h : s.blockChunk checked key declared = .ok (c, s')) :
    HeldSet.request c = .words := by
  obtain ⟨⟨head, s₁⟩, -, h⟩ := bind_eq_ok_iff.1 h
  dsimp only at h
  split at h
  · cases h
  · cases h
    rfl

end Source

namespace DecodeState

theorem description?_isSome {d : DecodeState} {n : Nat} (h : d.descriptions.length = 4 * (n + 1)) :
    ∃ key declared rest, d.description? = some ((key, declared), rest) ∧ rest.length = 4 * n := by
  obtain ⟨descriptions, entries, buffers, source⟩ := d
  obtain ⟨key, declared, rest, hkey, hpos, hle, hrest, rfl⟩ := exists_description h
  exact ⟨key, declared, rest, description?_append hkey hpos hle rest entries buffers source, hrest⟩

end DecodeState

/-! The calls that a reading makes. -/

namespace Allocator

variable {σ : Type} {A : Allocator σ} {s s' : σ} {checked isRuns : Bool} {key declared n : Nat}

theorem allocateAll_append (A : Allocator σ) (s : σ) (rs rs' : List Request) :
    A.allocateAll s (rs ++ rs') =
      ((A.allocateAll s rs).1 ++ (A.allocateAll (A.allocateAll s rs).2 rs').1,
        (A.allocateAll (A.allocateAll s rs).2 rs').2) := by
  induction rs generalizing s with
  | nil => rfl
  | cons r rs ih => simp only [List.cons_append, allocateAll, ih]

def Served (A : Allocator σ) (s : σ) : Except DecodeError ReadChunk × σ → Prop
  | (.ok r, s') => A.allocate s (HeldSet.request r.chunk) = (r.buffer, s')
  | (.error _, s') =>
    ∃ requests, s' = A.releaseAll (A.allocateAll s requests).2 (A.allocateAll s requests).1

theorem readInto_served {request : Request} {content : Except DecodeError (Chunk × Source)}
    (h : ∀ c source, content = .ok (c, source) → HeldSet.request c = request) :
    A.Served s (A.readInto s request content) := by
  cases content with
  | ok r =>
    rw [readInto, Served, h r.1 r.2 rfl]
  | error e => exact ⟨[request], rfl⟩

theorem readChunk_served (source : Source) :
    A.Served s (A.readChunk s checked isRuns key declared source) := by
  rw [readChunk]
  split
  · split
    · exact ⟨[], rfl⟩
    · exact readInto_served fun _ _ => Source.request_runChunk
  · split
    · split
      · exact ⟨[], rfl⟩
      · exact readInto_served fun _ _ => Source.request_arrayChunk
    · split
      · exact ⟨[], rfl⟩
      · exact readInto_served fun _ _ => Source.request_blockChunk

/-- The buffers of a set that was read are those handed out, one for each request that the set
makes; if the input is refused, the buffers handed out came back, each of them once. -/
def Balanced (A : Allocator σ) (s : σ) : Except DecodeError (HeldSet × Source) × σ → Prop
  | (.ok (h, _), s') => A.allocateAll s h.set.requests = (h.frame :: h.buffers.toList, s')
  | (.error _, s') => ∃ requests returned, returned.Perm (A.allocateAll s requests).1 ∧
      s' = A.releaseAll (A.allocateAll s requests).2 returned

theorem readEntry_served (flags : Array UInt8) (d : DecodeState) :
    A.Served s (A.readEntry s checked flags d key declared) := by
  rw [readEntry]
  split
  · exact ⟨[], rfl⟩
  · exact readChunk_served d.source

theorem readEntries_balanced {flags : Array UInt8} {frame : Buffer} {d : DecodeState}
    (hlength : d.descriptions.length = 4 * n)
    (hhanded : A.allocateAll s (d.requests n) = (frame :: d.buffers.toList, s')) :
    A.Balanced s (A.readEntries checked flags frame n d s') := by
  induction n generalizing d s' with
  | zero => exact hhanded
  | succ n ih =>
    obtain ⟨key, declared, rest, hdescription, hrest⟩ := d.description?_isSome hlength
    rw [readEntries, hdescription]
    dsimp only
    have hserved : A.Served s' (A.readEntry s' checked flags d key declared) :=
      readEntry_served flags d
    generalize A.readEntry s' checked flags d key declared = out at hserved ⊢
    obtain ⟨read, s₁⟩ := out
    cases read with
    | ok r =>
      refine ih hrest ?_
      have hrequests : DecodeState.requests ⟨rest, d.entries.push ⟨key, r.chunk⟩,
          d.buffers.push r.buffer, r.source⟩ n = d.requests (n + 1) ++ [HeldSet.request r.chunk] := by
        simp only [DecodeState.requests, Array.size_push, Array.toList_push, List.map_append,
          List.map_singleton, List.cons_append, Nat.add_assoc, Nat.add_comm 1]
      rw [Served] at hserved
      rw [hrequests, allocateAll_append, hhanded, allocateAll, hserved, Array.toList_push]
      rfl
    | error e =>
      -- the refused chunk gave back its own buffer already
      obtain ⟨pending, rfl⟩ := hserved
      refine ⟨d.requests (n + 1) ++ pending,
        (A.allocateAll s' pending).1 ++ (d.buffers.toList ++ [frame]), ?_, ?_⟩
      · rw [allocateAll_append, hhanded]
        exact List.perm_append_comm.trans ((List.perm_append_singleton _ _).append_right _)
      · rw [allocateAll_append, hhanded]
        simp only [releaseAll, List.foldl_append, List.foldl_cons, List.foldl_nil]

theorem decode_spec (A : Allocator σ) (s : σ) (mode : DecodeMode)
    (bytes : List UInt8) : A.Balanced s (A.decode s mode bytes) := by
  rw [decode]
  split
  · exact ⟨[], [], List.Perm.refl _, rfl⟩
  · rename_i p source hpreamble
    rw [Source.ofBytes_eq] at hpreamble
    obtain ⟨offsets, hlegal, -, -, -⟩ := Source.preamble_iff.1 hpreamble
    refine readEntries_balanced hlegal.descriptions ?_
    rw [DecodeState.requests, Array.size_empty, Nat.zero_add]
    rfl

end Allocator

namespace Ledger

def allocator : Allocator Ledger := ⟨allocate, release⟩

theorem allocator_readEntries (checked : Bool) (flags : Array UInt8) (frame : Buffer) (n : Nat)
    (d : DecodeState) (l : Ledger) :
    allocator.readEntries checked flags frame n d l = d.readEntries checked flags frame n l := by
  induction n generalizing d l with
  | zero => rfl
  | succ n ih =>
    simp only [Allocator.readEntries, DecodeState.readEntries, ih]
    rfl

theorem decode_eq (l : Ledger) (mode : DecodeMode) (bytes : List UInt8) :
    l.decode mode bytes = allocator.decode l mode bytes := by
  simp only [decode, Allocator.decode, allocator_readEntries]
  rfl

/-! What the ledger has booked, whatever addresses are fresh. -/

def booked (l : Ledger) : BufferKind → List Address
  | .vector => l.vectors
  | .words => l.words

def addresses (kind : BufferKind) (bs : List Buffer) : List Address :=
  (bs.filter (·.kind = kind)).map (·.address)

variable {l l' : Ledger} {bs returned : List Buffer}

theorem live_congr (h : l'.booked = l.booked) : l'.live = l.live := by
  have hvectors : l'.vectors = l.vectors := congrFun h .vector
  have hwords : l'.words = l.words := congrFun h .words
  rw [live, liveVectors, liveWords, hvectors, hwords]
  rfl

theorem booked_release (l : Ledger) (b : Buffer) (kind : BufferKind) :
    (l.release b).booked kind =
      if b.kind = kind then (l.booked kind).erase b.address else l.booked kind := by
  obtain ⟨_ | _, address⟩ := b <;> cases kind <;> rfl

theorem booked_release_congr (h : l'.booked = l.booked) (b : Buffer) :
    (l'.release b).booked = (l.release b).booked := by
  funext kind
  rw [booked_release, booked_release, h]

/-- As erasing two addresses commutes, the order in which buffers come back makes no difference. -/
theorem releaseAll_perm (h : returned.Perm bs) (l : Ledger) :
    l.releaseAll returned = l.releaseAll bs := by
  have hcomm : RightCommutative release := ⟨fun l b c => by
    obtain ⟨_ | _, address⟩ := b <;> obtain ⟨_ | _, address'⟩ := c <;>
      simp only [release, List.erase_comm]⟩
  exact h.foldl_eq l

theorem addresses_cons (kind : BufferKind) (b : Buffer) (bs : List Buffer) :
    addresses kind (b :: bs) = addresses kind [b] ++ addresses kind bs := by
  rw [addresses, ← List.singleton_append, List.filter_append, List.map_append]
  rfl

theorem booked_allocate (l : Ledger) (r : Request) (kind : BufferKind) :
    (l.allocate r).2.booked kind = addresses kind [(l.allocate r).1] ++ l.booked kind := by
  cases r with
  | words => cases kind <;> rfl
  | vector alignment capacity => cases capacity <;> cases kind <;> rfl

theorem booked_release_allocate (l : Ledger) (r : Request) :
    ((l.allocate r).2.release (l.allocate r).1).booked = l.booked := by
  funext kind
  rw [booked_release, booked_allocate, addresses]
  split
  · rename_i hkind
    simp [hkind]
  · rename_i hkind
    simp [hkind]

theorem booked_allocateAll (l : Ledger) (rs : List Request) (kind : BufferKind) :
    ((allocator.allocateAll l rs).2.booked kind).Perm
      (addresses kind (allocator.allocateAll l rs).1 ++ l.booked kind) := by
  induction rs generalizing l with
  | nil => exact List.Perm.refl _
  | cons r rs ih =>
    have hrest := ih (l.allocate r).2
    rw [booked_allocate] at hrest
    rw [Allocator.allocateAll, addresses_cons, List.append_assoc]
    exact hrest.trans (List.perm_append_comm_assoc _ _ _)

theorem booked_releaseAll_allocateAll (l : Ledger) (rs : List Request) :
    ((allocator.allocateAll l rs).2.releaseAll (allocator.allocateAll l rs).1).booked =
      l.booked := by
  induction rs generalizing l with
  | nil => rfl
  | cons r rs ih =>
    have hlast : ∀ (b : Buffer) (bs : List Buffer) (l : Ledger),
        l.releaseAll (b :: bs) = (l.releaseAll bs).release b := fun b bs l => by
      rw [← releaseAll_perm (List.perm_append_singleton b bs), releaseAll, List.foldl_append]
      rfl
    calc ((allocator.allocateAll l (r :: rs)).2.releaseAll
          (allocator.allocateAll l (r :: rs)).1).booked
      _ = (((allocator.allocateAll (l.allocate r).2 rs).2.releaseAll
            (allocator.allocateAll (l.allocate r).2 rs).1).release (l.allocate r).1).booked :=
          congrArg booked (hlast _ _ _)
      _ = ((l.allocate r).2.release (l.allocate r).1).booked := booked_release_congr (ih _) _
      _ = l.booked := booked_release_allocate l r

theorem live_allocate (l : Ledger) (r : Request) : (l.allocate r).2.live = l.live + 1 := by
  cases r with
  | words => rfl
  | vector alignment capacity => cases capacity <;> exact Nat.add_right_comm _ 1 _

theorem live_allocateAll (l : Ledger) (rs : List Request) :
    (allocator.allocateAll l rs).2.live = l.live + rs.length := by
  induction rs generalizing l with
  | nil => rfl
  | cons r rs ih =>
    rw [List.length_cons, Nat.add_comm rs.length, ← Nat.add_assoc, ← live_allocate l r]
    exact ih (l.allocate r).2

end Ledger

/-- With any allocator, what was handed out for a refused input has come back, each buffer once, and
what was handed out for a set are the buffers that it holds. In the ledger, whatever is booked there
already, nothing is left of the one, and of the other just these buffers, until they come back. -/
theorem decode_balanced (mode : DecodeMode) (bytes : List UInt8) :
    (∀ {σ : Type} (A : Allocator σ) (s : σ),
      (∀ e s', A.decode s mode bytes = (.error e, s') → ∃ requests returned,
        returned.Perm (A.allocateAll s requests).1 ∧
        s' = A.releaseAll (A.allocateAll s requests).2 returned) ∧
      ∀ h rest s', A.decode s mode bytes = (.ok (h, rest), s') →
        A.allocateAll s h.set.requests = (h.frame :: h.buffers.toList, s')) ∧
    ∀ l : Ledger, l.decode mode bytes = Ledger.allocator.decode l mode bytes ∧
      (∀ e l', l.decode mode bytes = (.error e, l') →
        l'.vectors = l.vectors ∧ l'.words = l.words ∧ l'.live = l.live) ∧
      ∀ h rest l', l.decode mode bytes = (.ok (h, rest), l') →
        (∀ kind, (l'.booked kind).Perm
          (Ledger.addresses kind (h.frame :: h.buffers.toList) ++ l.booked kind)) ∧
        l'.live = l.live + (1 + h.set.entries.size) ∧
        (∀ returned, returned.Perm (h.frame :: h.buffers.toList) →
          (l'.releaseAll returned).booked = l.booked) ∧
        (h.release l').booked = l.booked ∧ (h.release l').live = l.live := by
  refine ⟨fun A s => ⟨fun e s' h => ?_, fun h rest s' hread => ?_⟩,
    fun l => ⟨l.decode_eq mode bytes, fun e l' h => ?_, fun h rest l' hread => ?_⟩⟩
  · have hspec := A.decode_spec s mode bytes
    rwa [h] at hspec
  · have hspec := A.decode_spec s mode bytes
    rwa [hread] at hspec
  · have hspec := Ledger.allocator.decode_spec l mode bytes
    rw [← l.decode_eq, h] at hspec
    obtain ⟨requests, returned, hperm, rfl⟩ := hspec
    have hbooked := Ledger.booked_releaseAll_allocateAll l requests
    rw [← Ledger.releaseAll_perm hperm] at hbooked
    exact ⟨congrFun hbooked .vector, congrFun hbooked .words, Ledger.live_congr hbooked⟩
  · have hspec := Ledger.allocator.decode_spec l mode bytes
    rw [← l.decode_eq, hread, Allocator.Balanced] at hspec
    have hback := Ledger.booked_releaseAll_allocateAll l h.set.requests
    have hbooked := Ledger.booked_allocateAll l h.set.requests
    have hlive := Ledger.live_allocateAll l h.set.requests
    rw [hspec] at hback hbooked hlive
    have hany : ∀ returned, returned.Perm (h.frame :: h.buffers.toList) →
        (l'.releaseAll returned).booked = l.booked := fun returned hperm => by
      rw [Ledger.releaseAll_perm hperm]
      exact hback
    have hrelease : h.release l' = l'.releaseAll (h.buffers.toList ++ [h.frame]) := by
      rw [Ledger.releaseAll, List.foldl_append]
      rfl
    have hreleased : (h.release l').booked = l.booked := by
      rw [hrelease]
      exact hany _ (List.perm_append_singleton _ _)
    refine ⟨hbooked, ?_, hany, hreleased, Ledger.live_congr hreleased⟩
    rw [hlive, IntSet.requests, List.length_cons, List.length_map, Array.length_toList,
      Nat.add_comm 1]

/-- The second array goes backward, which is refused once both arrays have their buffers, and the
ledger has booked the addresses already that these are given. The other input is a single run. -/
theorem decode_balanced_backward :
    let refused : List UInt8 := [58, 48, 0, 0, 2, 0, 0, 0, 0, 0, 1, 0, 1, 0, 1, 0,
      24, 0, 0, 0, 28, 0, 0, 0, 1, 0, 2, 0, 5, 0, 0, 0]
    let accepted : List UInt8 := [59, 48, 0, 0, 1, 0, 0, 4, 0, 1, 0, 7, 0, 4, 0]
    let l : Ledger := ⟨[.placed 0, .vacant 8], [.placed 1], 0⟩
    let A := Ledger.allocator
    (∃ l', l.decode .reader refused = (.error (.invalidArray 1 (.outOfOrder 1)), l') ∧
      l'.vectors = l.vectors ∧ l'.words = l.words ∧ ∃ requests returned,
        returned.Perm (A.allocateAll l requests).1 ∧
        l' = A.releaseAll (A.allocateAll l requests).2 returned) ∧
    ∃ h rest l', l.decode .unchecked accepted = (.ok (h, rest), l') ∧
      A.allocateAll l h.set.requests = (h.frame :: h.buffers.toList, l') ∧
      l'.live = 5 ∧ (h.release l').live = 3 := by
  intro refused accepted l A
  obtain ⟨hcalls, hledger⟩ := decode_balanced .reader refused
  obtain ⟨hcalls', hledger'⟩ := decode_balanced .unchecked accepted
  have hrefused : l.decode .reader refused =
      (.error (.invalidArray 1 (.outOfOrder 1)), ⟨l.vectors, l.words, 3⟩) := by cbv
  have haccepted : l.decode .unchecked accepted =
      (.ok (⟨⟨#[⟨0, .runs ⟨#[⟨7, 11⟩]⟩⟩]⟩, ⟨.vector, .placed 0⟩, #[⟨.vector, .placed 1⟩]⟩,
        ⟨[], none⟩), ⟨.placed 1 :: .placed 0 :: l.vectors, l.words, 2⟩) := by cbv
  have hset := (hledger' l).2.2 _ _ _ haccepted
  refine ⟨⟨_, hrefused, rfl, rfl, (hcalls A l).1 _ _ ((hledger l).1 ▸ hrefused)⟩,
    _, _, _, haccepted, (hcalls' A l).2 _ _ _ ((hledger' l).1 ▸ haccepted), hset.2.1,
    hset.2.2.2.2⟩

end ChunkedSet
