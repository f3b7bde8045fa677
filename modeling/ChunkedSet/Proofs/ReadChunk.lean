import ChunkedSet.Proofs.Source

/-!
# Reading payloads

Checked reading of a payload accepts the legal payloads and nothing else. Reading without checks
does the same to all that checked reading finds no fault with.
-/

namespace ChunkedSet

def DecodeError.isContentFault : DecodeError → Bool
  | invalidRuns _ _ => true
  | invalidArray _ _ => true
  | sizeMismatch _ _ _ => true
  | _ => false

def Faulted {α : Type} (x : Except DecodeError α) : Prop :=
  ∃ e, x = .error e ∧ e.isContentFault = true

theorem faulted_or_bind_eq {α β : Type} {x : Except DecodeError α}
    {f g : α → Except DecodeError β} (h : ∀ a, Faulted (f a) ∨ g a = f a) :
    Faulted (x >>= f) ∨ x >>= g = x >>= f := by
  cases x with
  | error e => exact .inr rfl
  | ok a => exact h a

theorem OrderFault.find?_eq_none {values : List Nat} {index : Nat} :
    OrderFault.find? values index = none ↔ values.Pairwise (· < ·) := by
  rw [← List.isChain_iff_pairwise]
  induction values generalizing index with
  | nil => simp [find?]
  | cons x values ih =>
    cases values with
    | nil => simp [find?]
    | cons y rest =>
      rw [find?, List.isChain_cons_cons]
      split
      · rename_i hlt
        simp only [reduceCtorEq, false_iff]
        omega
      · split
        · rename_i heq
          simp only [reduceCtorEq, false_iff]
          omega
        · rw [ih]
          refine (and_iff_right ?_).symm
          omega

theorem RunFault.find?_some {pairs : List (Nat × Nat)} {b : Nat × Nat} {index : Nat} :
    RunFault.find? (pairs.map Run.ofPair) (some (Run.ofPair b)) index = none ↔
      (b :: pairs).IsChain (fun r s => r.1 + r.2 + 2 ≤ s.1) := by
  induction pairs generalizing b index with
  | nil => simp [find?]
  | cons r pairs ih =>
    have hordered : ¬(Run.ofPair r).last < (Run.ofPair r).first :=
      Nat.not_lt_of_le (Nat.le_add_right _ _)
    rw [List.map_cons, find?, if_neg hordered, List.isChain_cons_cons]
    split
    · rename_i hle
      simp only [Run.ofPair] at hle
      simp only [reduceCtorEq, false_iff]
      omega
    · rename_i hlt
      simp only [Run.ofPair] at hlt
      rw [ih]
      refine (and_iff_right ?_).symm
      omega

theorem RunFault.find?_none {pairs : List (Nat × Nat)} {index : Nat} :
    RunFault.find? (pairs.map Run.ofPair) none index = none ↔
      pairs.IsChain (fun r s => r.1 + r.2 + 2 ≤ s.1) := by
  cases pairs with
  | nil => simp [find?]
  | cons r pairs =>
    have hordered : ¬(Run.ofPair r).last < (Run.ofPair r).first :=
      Nat.not_lt_of_le (Nat.le_add_right _ _)
    rw [List.map_cons, find?, if_neg hordered]
    exact find?_some

namespace Source

variable {sized : Bool} {bytes : List UInt8} {s : Source}

theorem runCount_iff {key count : Nat} : (reading sized 0 bytes).runCount key = .ok (count, s) ↔
    1 ≤ count ∧ count ≤ 32768 ∧ ∃ rest, bytes = Bytes.ofNat 2 count ++ rest ∧
      (sized = true → 4 * count ≤ rest.length) ∧ s = reading sized (4 * count) rest := by
  rw [runCount, reserve_bind, bind_eq_ok_iff]
  simp only [Prod.exists]
  constructor
  · intro h
    obtain ⟨-, x, s', hx, h⟩ := h
    obtain ⟨-, rest, rfl, rfl⟩ := nat16_iff.1 hx
    split at h
    · cases h
    · split at h
      · cases h
      · rename_i hpos hle
        obtain ⟨hlength, h⟩ := reserve_bind.1 h
        cases h
        unfold maxRuns at hle
        exact ⟨by omega, by omega, rest, rfl, hlength, rfl⟩
  · intro h
    obtain ⟨hpos, hle, rest, rfl, hlength, rfl⟩ := h
    refine ⟨fun _ => ?_, count, _, nat16_iff.2 ⟨by omega, rest, rfl, rfl⟩, ?_⟩
    · rw [List.length_append, Bytes.length_ofNat]
      exact Nat.le_add_right _ _
    · have hzero : ¬count = 0 := by omega
      have hmany : ¬maxRuns < count := Nat.not_lt_of_le hle
      rw [if_neg hzero, if_neg hmany]
      exact reserve_bind.2 ⟨hlength, rfl⟩

theorem runs_iff {key n : Nat} {out runs : Array Run} :
    Source.runs key n (reading sized (4 * n) bytes) out = .ok (runs, s) ↔
      ∃ pairs : List (Nat × Nat), pairs.length = n ∧ (∀ r ∈ pairs, r.1 + r.2 ≤ 65535) ∧
        runs = out ++ (pairs.map Run.ofPair).toArray ∧
        ∃ rest, bytes = pairs.flatMap Payload.pairBytes ++ rest ∧ s = reading sized 0 rest := by
  induction n generalizing bytes out runs s with
  | zero =>
    rw [Source.runs]
    constructor
    · intro h
      cases h
      exact ⟨[], rfl, nofun, by simp, bytes, rfl, rfl⟩
    · intro h
      obtain ⟨pairs, hlength, -, rfl, rest, rfl, rfl⟩ := h
      rw [List.length_eq_zero_iff.1 hlength]
      simp
  | succ n ih =>
    have hfirst : 4 * (n + 1) = 4 * n + 2 + 2 := by omega
    rw [Source.runs, hfirst, bind_eq_ok_iff]
    constructor
    · intro h
      obtain ⟨⟨first, s'⟩, hread, h⟩ := h
      obtain ⟨-, rest, rfl, rfl⟩ := nat16_iff.1 hread
      obtain ⟨⟨length, s'⟩, hread', h'⟩ := bind_eq_ok_iff.1 h
      obtain ⟨-, rest, rfl, rfl⟩ := nat16_iff.1 hread'
      dsimp only at h'
      split at h'
      · cases h'
      · rename_i hle
        obtain ⟨pairs, hlength, hall, rfl, rest, rfl, rfl⟩ := ih.1 h'
        refine ⟨(first, length) :: pairs, congrArg Nat.succ hlength, ?_, ?_, rest, ?_, rfl⟩
        · exact List.forall_mem_cons.2 ⟨Nat.le_of_not_lt hle, hall⟩
        · simp [Run.ofPair]
        · rw [List.flatMap_cons, Payload.pairBytes]
          simp only [List.append_assoc]
    · intro h
      obtain ⟨pairs, hlength, hall, rfl, rest, rfl, rfl⟩ := h
      obtain ⟨r, pairs, rfl⟩ := List.exists_cons_of_length_eq_add_one hlength
      obtain ⟨hle, hall⟩ := List.forall_mem_cons.1 hall
      rw [List.flatMap_cons, Payload.pairBytes]
      simp only [List.append_assoc]
      refine ⟨_, nat16_iff.2 ⟨by omega, _, rfl, rfl⟩, bind_eq_ok_iff.2 ?_⟩
      have hinside : ¬lastPosition < r.1 + r.2 := Nat.not_lt_of_le hle
      refine ⟨_, nat16_iff.2 ⟨by omega, _, rfl, rfl⟩, ?_⟩
      dsimp only
      rw [if_neg hinside, ih]
      exact ⟨pairs, Nat.succ.inj hlength, hall, by simp [Run.ofPair], rest, rfl, rfl⟩

theorem runChunk_iff {checked : Bool} {key declared count : Nat} {c : Chunk} :
    (reading sized (4 * count) bytes).runChunk checked key declared count = .ok (c, s) ↔
      ∃ pairs : List (Nat × Nat), pairs.length = count ∧ (∀ r ∈ pairs, r.1 + r.2 ≤ 65535) ∧
        (checked = true → pairs.IsChain (fun r s => r.1 + r.2 + 2 ≤ s.1) ∧
          (pairs.map fun r => r.2 + 1).sum = declared) ∧ c = (Payload.runs pairs).chunk ∧
        ∃ rest, bytes = pairs.flatMap Payload.pairBytes ++ rest ∧ s = reading sized 0 rest := by
  have hlist (pairs : List (Nat × Nat)) :
      (#[] ++ (pairs.map Run.ofPair).toArray) = (pairs.map Run.ofPair).toArray := by
    simp
  rw [runChunk, bind_eq_ok_iff]
  constructor
  · intro h
    obtain ⟨⟨runs, s'⟩, hruns, h⟩ := h
    obtain ⟨pairs, hlength, hall, rfl, rest, rfl, rfl⟩ := runs_iff.1 hruns
    dsimp only at h
    rw [hlist] at h
    cases checked with
    | false =>
      cases h
      exact ⟨pairs, hlength, hall, nofun, rfl, rest, rfl, rfl⟩
    | true =>
      rw [if_pos rfl] at h
      split at h
      · cases h
      · rename_i hfault
        split at h
        · rename_i hsize
          cases h
          rw [size_ofPairs] at hsize
          exact ⟨pairs, hlength, hall, fun _ => ⟨RunFault.find?_none.1 hfault, hsize⟩, rfl, rest,
            rfl, rfl⟩
        · cases h
  · intro h
    obtain ⟨pairs, hlength, hall, hsound, rfl, rest, rfl, rfl⟩ := h
    refine ⟨_, runs_iff.2 ⟨pairs, hlength, hall, rfl, rest, rfl, rfl⟩, ?_⟩
    dsimp only
    rw [hlist]
    cases checked with
    | false => rfl
    | true =>
      obtain ⟨hchain, hsum⟩ := hsound rfl
      have hfault : RunFault.find? (RunList.toList ⟨(pairs.map Run.ofPair).toArray⟩) none 0 =
          none := RunFault.find?_none.2 hchain
      rw [hfault, if_pos rfl, size_ofPairs, if_pos hsum]
      rfl

theorem toNats_flatMap {values : List Nat} (hlt : ∀ v ∈ values, v < 65536) (out : Array Nat) :
    toNats (values.flatMap (Bytes.ofNat 2)) out = out ++ values.toArray := by
  induction values generalizing out with
  | nil => simp [toNats]
  | cons v values ih =>
    obtain ⟨hv, hrest⟩ := List.forall_mem_cons.1 hlt
    have hvalue : Bytes.toNat (Bytes.ofNat 2 v) = v := Bytes.toNat_ofNat_of_lt hv
    rw [List.flatMap_cons]
    change toNats (values.flatMap (Bytes.ofNat 2)) (out.push (Bytes.toNat (Bytes.ofNat 2 v))) = _
    rw [hvalue, ih hrest]
    simp

theorem arrayChunk_iff {checked : Bool} {key declared : Nat} {c : Chunk} :
    (reading sized (arrayBytes declared) bytes).arrayChunk checked key declared = .ok (c, s) ↔
      ∃ values : List Nat, values.length = declared ∧ (∀ v ∈ values, v < 65536) ∧
        (checked = true → values.Pairwise (· < ·)) ∧ c = (Payload.array values).chunk ∧
        ∃ rest, bytes = values.flatMap (Bytes.ofNat 2) ++ rest ∧ s = reading sized 0 rest := by
  rw [arrayChunk, bind_eq_ok_iff]
  constructor
  · intro h
    obtain ⟨⟨head, s'⟩, htake, h⟩ := h
    obtain ⟨hlength, rest, rfl, rfl⟩ := take_claimed_iff.1 htake
    obtain ⟨values, hcount, hlt, rfl⟩ := Bytes.exists_numbers 2 declared hlength
    have hvalues : toNats (values.flatMap (Bytes.ofNat 2)) #[] = values.toArray := by
      simpa using toNats_flatMap hlt #[]
    dsimp only at h
    rw [hvalues] at h
    cases checked with
    | false =>
      cases h
      exact ⟨values, hcount, hlt, nofun, rfl, rest, rfl, rfl⟩
    | true =>
      rw [if_pos rfl] at h
      split at h
      · cases h
      · rename_i hfault
        cases h
        exact ⟨values, hcount, hlt, fun _ => OrderFault.find?_eq_none.1 hfault, rfl, rest, rfl, rfl⟩
  · intro h
    obtain ⟨values, hcount, hlt, hsorted, rfl, rest, rfl, rfl⟩ := h
    have hlength : (values.flatMap (Bytes.ofNat 2)).length = arrayBytes declared := by
      rw [Bytes.length_flatMap_ofNat, hcount, arrayBytes]
    have hvalues : toNats (values.flatMap (Bytes.ofNat 2)) #[] = values.toArray := by
      simpa using toNats_flatMap hlt #[]
    refine ⟨_, take_claimed_iff.2 ⟨hlength, rest, rfl, rfl⟩, ?_⟩
    dsimp only
    rw [hvalues]
    cases checked with
    | false => rfl
    | true =>
      have hfault : OrderFault.find? (SortedArray.toList ⟨values.toArray⟩) 0 = none :=
        OrderFault.find?_eq_none.2 (hsorted rfl)
      rw [hfault, if_pos rfl]
      rfl

theorem toWords_flatMap (list : List UInt64) (out : Array UInt64) :
    toWords (list.flatMap Bytes.ofWord) out = out ++ list.toArray := by
  induction list generalizing out with
  | nil => simp [toWords]
  | cons w list ih =>
    have hword := Bytes.toWord_eq_iff.2 (rfl : Bytes.ofWord w = Bytes.ofWord w)
    rw [List.flatMap_cons]
    change toWords (list.flatMap Bytes.ofWord) (out.push _) = _
    rw [hword, ih]
    simp

theorem ofWords_ofList {list : List UInt64} (hlength : list.length = 1024) :
    Block.ofWords (Words.ofList list) = ⟨(list.map Word.popcount).sum, Words.ofList list⟩ := by
  rw [Block.ofWords, Words.popcount_eq_sum, Words.toList_ofList hlength]

theorem blockChunk_iff {checked : Bool} {key declared : Nat} {c : Chunk} :
    (reading sized blockBytes bytes).blockChunk checked key declared = .ok (c, s) ↔
      ∃ list : List UInt64, list.length = 1024 ∧
        (checked = true → (list.map Word.popcount).sum = declared) ∧
        c = (Payload.words list).chunk ∧
        ∃ rest, bytes = list.flatMap Bytes.ofWord ++ rest ∧ s = reading sized 0 rest := by
  rw [blockChunk, bind_eq_ok_iff]
  constructor
  · intro h
    obtain ⟨⟨head, s'⟩, htake, h⟩ := h
    obtain ⟨hlength, rest, rfl, rfl⟩ := take_claimed_iff.1 htake
    obtain ⟨list, hcount, rfl⟩ := Bytes.exists_words 1024 hlength
    have hwords : (toWords (list.flatMap Bytes.ofWord) #[]).toList = list := by
      simpa using congrArg Array.toList (toWords_flatMap list #[])
    dsimp only at h
    rw [hwords, ofWords_ofList hcount] at h
    split at h
    · cases h
    · rename_i hsize
      cases h
      refine ⟨list, hcount, fun hchecked => ?_, rfl, rest, rfl, rfl⟩
      simpa [hchecked] using hsize
  · intro h
    obtain ⟨list, hcount, hsum, rfl, rest, rfl, rfl⟩ := h
    have hlength : (list.flatMap Bytes.ofWord).length = blockBytes := by
      rw [Bytes.length_flatMap_ofWord, hcount]
      rfl
    have hwords : (toWords (list.flatMap Bytes.ofWord) #[]).toList = list := by
      simpa using congrArg Array.toList (toWords_flatMap list #[])
    refine ⟨_, take_claimed_iff.2 ⟨hlength, rest, rfl, rfl⟩, ?_⟩
    dsimp only
    rw [hwords, ofWords_ofList hcount, if_neg]
    · rfl
    · cases checked with
      | false => simp
      | true => simp [hsum rfl]

/-! Without checks. What checked reading does not find fault with is read alike. -/

theorem runChunk_unchecked {key declared count : Nat} :
    Faulted (s.runChunk true key declared count) ∨
      s.runChunk false key declared count = s.runChunk true key declared count := by
  refine faulted_or_bind_eq fun r => ?_
  dsimp only
  rw [if_pos rfl, if_neg Bool.false_ne_true]
  split
  · exact .inl ⟨_, rfl, rfl⟩
  · split
    · exact .inr rfl
    · exact .inl ⟨_, rfl, rfl⟩

theorem arrayChunk_unchecked {key declared : Nat} :
    Faulted (s.arrayChunk true key declared) ∨
      s.arrayChunk false key declared = s.arrayChunk true key declared := by
  refine faulted_or_bind_eq fun r => ?_
  dsimp only
  rw [if_pos rfl, if_neg Bool.false_ne_true]
  split
  · exact .inl ⟨_, rfl, rfl⟩
  · exact .inr rfl

theorem blockChunk_unchecked {key declared : Nat} :
    Faulted (s.blockChunk true key declared) ∨
      s.blockChunk false key declared = s.blockChunk true key declared := by
  refine faulted_or_bind_eq fun r => ?_
  dsimp only
  rw [Bool.true_and, Bool.false_and, if_neg Bool.false_ne_true]
  split
  · exact .inl ⟨_, rfl, rfl⟩
  · exact .inr rfl

def payload (checked isRuns : Bool) (key declared : Nat) (s : Source) :
    Except DecodeError (Chunk × Source) :=
  if isRuns then s.runCount key >>= fun r => r.2.runChunk checked key declared r.1
  else if declared ≤ arrayLimit then
    s.reserve (arrayBytes declared) >>= fun s => s.arrayChunk checked key declared
  else s.reserve blockBytes >>= fun s => s.blockChunk checked key declared

/-- What is read stands at the front, and it is legal if the content was checked. -/
theorem exists_payload {checked isRuns : Bool} {key declared : Nat} {c : Chunk}
    (h : (reading sized 0 bytes).payload checked isRuns key declared = .ok (c, s)) :
    ∃ p : Payload, p.Shaped isRuns declared ∧ (checked = true → p.Legal isRuns declared) ∧
      c = p.chunk ∧ ∃ rest, bytes = p.bytes ++ rest ∧ s = reading sized 0 rest := by
  cases isRuns with
  | true =>
    obtain ⟨⟨count, s'⟩, hcount, hchunk⟩ := bind_eq_ok_iff.1 h
    obtain ⟨hpos, hle, rest, rfl, -, rfl⟩ := runCount_iff.1 hcount
    obtain ⟨pairs, rfl, hall, hsound, rfl, rest, rfl, rfl⟩ := runChunk_iff.1 hchunk
    exact ⟨.runs pairs, ⟨rfl, hpos, hle, hall⟩, fun hchecked => ⟨rfl, hpos, hle, hall,
      hsound hchecked⟩, rfl, rest, (List.append_assoc _ _ _).symm, rfl⟩
  | false =>
    by_cases hle : declared ≤ arrayLimit
    · rw [payload, if_neg Bool.false_ne_true, if_pos hle] at h
      obtain ⟨-, hchunk⟩ := reserve_bind.1 h
      obtain ⟨values, hcount, hlt, hsorted, rfl, rest, rfl, rfl⟩ := arrayChunk_iff.1 hchunk
      exact ⟨.array values, ⟨rfl, hle, hcount⟩, fun hchecked => ⟨rfl, hle, hcount, hlt,
        hsorted hchecked⟩, rfl, rest, rfl, rfl⟩
    · rw [payload, if_neg Bool.false_ne_true, if_neg hle] at h
      obtain ⟨-, hchunk⟩ := reserve_bind.1 h
      obtain ⟨list, hcount, hsum, rfl, rest, rfl, rfl⟩ := blockChunk_iff.1 hchunk
      have hlt := Nat.lt_of_not_le hle
      exact ⟨.words list, ⟨rfl, hlt, hcount⟩, fun hchecked => ⟨rfl, hlt, hcount,
        hsum hchecked⟩, rfl, rest, rfl, rfl⟩

theorem payload_append {isRuns : Bool} {declared : Nat} {p : Payload}
    (hlegal : p.Legal isRuns declared) (sized : Bool) (key : Nat) (rest : List UInt8) :
    (reading sized 0 (p.bytes ++ rest)).payload true isRuns key declared =
      .ok (p.chunk, reading sized 0 rest) := by
  cases p with
  | runs pairs =>
    obtain ⟨rfl, hpos, hle, hall, hchain, hsum⟩ := hlegal
    have hlength : 4 * pairs.length ≤ (pairs.flatMap Payload.pairBytes ++ rest).length := by
      rw [List.length_append, Payload.length_flatMap_pairBytes]
      exact Nat.le_add_right _ _
    exact bind_eq_ok_iff.2 ⟨_, runCount_iff.2 ⟨hpos, hle, _, List.append_assoc _ _ rest,
      fun _ => hlength, rfl⟩, runChunk_iff.2
        ⟨pairs, rfl, hall, fun _ => ⟨hchain, hsum⟩, rfl, rest, rfl, rfl⟩⟩
  | array values =>
    obtain ⟨rfl, hle, hcount, hlt, hsorted⟩ := hlegal
    have hlength : arrayBytes declared ≤ (values.flatMap (Bytes.ofNat 2) ++ rest).length := by
      rw [List.length_append, Bytes.length_flatMap_ofNat, hcount]
      exact Nat.le_add_right _ _
    have hlimit : declared ≤ arrayLimit := hle
    rw [payload, if_neg Bool.false_ne_true, if_pos hlimit]
    exact reserve_bind.2 ⟨fun _ => hlength,
      arrayChunk_iff.2 ⟨values, hcount, hlt, fun _ => hsorted, rfl, rest, rfl, rfl⟩⟩
  | words list =>
    obtain ⟨rfl, hlt, hcount, hsum⟩ := hlegal
    have hlength : blockBytes ≤ (list.flatMap Bytes.ofWord ++ rest).length := by
      rw [List.length_append, Bytes.length_flatMap_ofWord, hcount]
      exact Nat.le_add_right _ _
    have hlimit : ¬declared ≤ arrayLimit := Nat.not_le_of_lt hlt
    rw [payload, if_neg Bool.false_ne_true, if_neg hlimit]
    exact reserve_bind.2 ⟨fun _ => hlength,
      blockChunk_iff.2 ⟨list, hcount, fun _ => hsum, rfl, rest, rfl, rfl⟩⟩

end Source

namespace Ledger

/-! The buffer of a chunk decides nothing, and neither does the ledger it comes from. -/

theorem readInto_eq (l : Ledger) (r : Request) (content : Except DecodeError (Chunk × Source)) :
    (l.readInto r content).1 = content.map fun cs => ⟨cs.1, (l.allocate r).1, cs.2⟩ := by
  cases content <;> rfl

theorem readChunk_eq (l : Ledger) (checked isRuns : Bool) (key declared : Nat) (s : Source) :
    ∃ buffer, (l.readChunk checked isRuns key declared s).1 =
      (s.payload checked isRuns key declared).map fun cs => ⟨cs.1, buffer, cs.2⟩ := by
  unfold readChunk Source.payload
  split
  · cases s.runCount key with
    | error e => exact ⟨(l.allocate .words).1, rfl⟩
    | ok r => exact ⟨_, readInto_eq l _ _⟩
  · split
    · cases s.reserve (arrayBytes declared) with
      | error e => exact ⟨(l.allocate .words).1, rfl⟩
      | ok s => exact ⟨_, readInto_eq l _ _⟩
    · cases s.reserve blockBytes with
      | error e => exact ⟨(l.allocate .words).1, rfl⟩
      | ok s => exact ⟨_, readInto_eq l _ _⟩

theorem payload_of_readChunk {l : Ledger} {checked isRuns : Bool} {key declared : Nat}
    {s : Source} {r : ReadChunk} (h : (l.readChunk checked isRuns key declared s).1 = .ok r) :
    s.payload checked isRuns key declared = .ok (r.chunk, r.source) := by
  obtain ⟨buffer, hread⟩ := l.readChunk_eq checked isRuns key declared s
  rw [h] at hread
  cases hpayload : s.payload checked isRuns key declared with
  | error e =>
    rw [hpayload] at hread
    cases hread
  | ok cs =>
    rw [hpayload] at hread
    cases hread
    rfl

variable {l : Ledger}

theorem readChunk_append {isRuns : Bool} {declared : Nat} {p : Payload}
    (hlegal : p.Legal isRuns declared) (l : Ledger) (sized : Bool) (key : Nat) (rest : List UInt8) :
    ∃ buffer, (l.readChunk true isRuns key declared (.reading sized 0 (p.bytes ++ rest))).1 =
      .ok ⟨p.chunk, buffer, .reading sized 0 rest⟩ := by
  obtain ⟨buffer, hread⟩ :=
    l.readChunk_eq true isRuns key declared (.reading sized 0 (p.bytes ++ rest))
  rw [Source.payload_append hlegal] at hread
  exact ⟨buffer, hread⟩

theorem readInto_unchecked {r : Request} {content content' : Except DecodeError (Chunk × Source)}
    (h : Faulted content ∨ content' = content) :
    Faulted (l.readInto r content).1 ∨ l.readInto r content' = l.readInto r content := by
  rcases h with h | rfl
  · obtain ⟨e, rfl, he⟩ := h
    exact .inl ⟨e, rfl, he⟩
  · exact .inr rfl

/-- Reading without checks agrees with checked reading unless that finds fault with the content. -/
theorem readChunk_unchecked (l : Ledger) (isRuns : Bool) (key declared : Nat) (s : Source) :
    Faulted (l.readChunk true isRuns key declared s).1 ∨
      l.readChunk false isRuns key declared s = l.readChunk true isRuns key declared s := by
  unfold readChunk
  split
  · split
    · exact .inr rfl
    · exact readInto_unchecked Source.runChunk_unchecked
  · split
    · split
      · exact .inr rfl
      · exact readInto_unchecked Source.arrayChunk_unchecked
    · split
      · exact .inr rfl
      · exact readInto_unchecked Source.blockChunk_unchecked

end Ledger

end ChunkedSet
