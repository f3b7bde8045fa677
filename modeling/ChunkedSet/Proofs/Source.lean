import ChunkedSet.Codec.Reader
import ChunkedSet.Proofs.Image

/-!
# Sources

What each reading step accepts: it succeeds exactly when the bytes that it consumes stand at the
front. This holds with and without a known length, since a section claims no more than it reads.
-/

namespace ChunkedSet

theorem bind_eq_ok_iff {ε α β : Type} {x : Except ε α} {f : α → Except ε β} {b : β} :
    x >>= f = .ok b ↔ ∃ a, x = .ok a ∧ f a = .ok b := by
  cases x with
  | error e =>
    refine ⟨fun h => ?_, fun h => ?_⟩
    · cases h
    · obtain ⟨a, ha, -⟩ := h
      cases ha
  | ok a =>
    refine ⟨fun h => ⟨a, rfl, h⟩, fun h => ?_⟩
    obtain ⟨a', ha, hf⟩ := h
    cases ha
    exact hf

namespace Source

/-- The source in front of `bytes`, of which the first `claimed` ones are claimed. -/
def reading (sized : Bool) (claimed : Nat) (bytes : List UInt8) : Source :=
  ⟨bytes, if sized then some (bytes.length - claimed) else none⟩

variable {sized : Bool} {claimed n : Nat} {bytes : List UInt8} {s : Source}

theorem ofBytes_eq (mode : DecodeMode) (bytes : List UInt8) :
    ofBytes mode bytes = reading (mode == .slice) 0 bytes := by
  cases mode <;> rfl

theorem reserve_iff : (reading sized 0 bytes).reserve n = .ok s ↔
    (sized = true → n ≤ bytes.length) ∧ s = reading sized n bytes := by
  cases sized with
  | false => simp [reserve, reading, eq_comm]
  | true =>
    rw [reserve, reading, if_pos rfl, Nat.sub_zero]
    dsimp only
    split
    · rename_i hlt
      simp only [reduceCtorEq, false_iff, forall_const]
      omega
    · rename_i hle
      simp only [Except.ok.injEq, reading, if_true, Nat.le_of_not_lt hle, forall_const, true_and,
        eq_comm]

theorem reserve_bind {β : Type} {f : Source → Except DecodeError β} {b : β} :
    (reading sized 0 bytes).reserve n >>= f = .ok b ↔
      (sized = true → n ≤ bytes.length) ∧ f (reading sized n bytes) = .ok b := by
  rw [bind_eq_ok_iff]
  constructor
  · intro h
    obtain ⟨s, hs, hf⟩ := h
    obtain ⟨hle, rfl⟩ := reserve_iff.1 hs
    exact ⟨hle, hf⟩
  · intro h
    exact ⟨_, reserve_iff.2 ⟨h.1, rfl⟩, h.2⟩

theorem remaining_append (head rest : List UInt8) :
    (reading sized (claimed + head.length) (head ++ rest)).remaining =
      (reading sized claimed rest).remaining := by
  have hlength : (head ++ rest).length - (claimed + head.length) = rest.length - claimed := by
    rw [List.length_append]
    omega
  rw [reading, reading, hlength]

theorem take_append (sized : Bool) (claimed : Nat) (head rest : List UInt8) :
    (reading sized (claimed + head.length) (head ++ rest)).take head.length =
      .ok (head, reading sized claimed rest) := by
  have hbytes : (reading sized (claimed + head.length) (head ++ rest)).bytes = head ++ rest := rfl
  rw [take, List.splitAt_eq, hbytes, List.take_left, List.drop_left]
  dsimp only
  rw [if_pos rfl, remaining_append]
  rfl

theorem take_iff {head : List UInt8} :
    (reading sized (claimed + n) bytes).take n = .ok (head, s) ↔
      head.length = n ∧ ∃ rest, bytes = head ++ rest ∧ s = reading sized claimed rest := by
  constructor
  · intro h
    by_cases hn : n ≤ bytes.length
    · have hlength : (bytes.take n).length = n := List.length_take_of_le hn
      have htake := take_append sized claimed (bytes.take n) (bytes.drop n)
      rw [hlength, List.take_append_drop, h] at htake
      obtain ⟨rfl, rfl⟩ := Prod.mk.inj (Except.ok.inj htake)
      exact ⟨hlength, bytes.drop n, (List.take_append_drop n bytes).symm, rfl⟩
    · have hbytes : (reading sized (claimed + n) bytes).bytes = bytes := rfl
      rw [take, List.splitAt_eq, hbytes] at h
      dsimp only at h
      rw [if_neg (by rw [List.length_take]; omega)] at h
      cases h
  · intro h
    obtain ⟨rfl, rest, rfl, rfl⟩ := h
    exact take_append sized claimed head rest

theorem take_claimed_iff {head : List UInt8} : (reading sized n bytes).take n = .ok (head, s) ↔
    head.length = n ∧ ∃ rest, bytes = head ++ rest ∧ s = reading sized 0 rest := by
  have htake : (reading sized (0 + n) bytes).take n = .ok (head, s) ↔
      head.length = n ∧ ∃ rest, bytes = head ++ rest ∧ s = reading sized 0 rest := take_iff
  rw [Nat.zero_add] at htake
  exact htake

theorem nat16_eq_take (s : Source) :
    s.nat16 = (s.take 2).map fun r => (Bytes.toNat r.1, r.2) := by
  obtain ⟨bytes, remaining⟩ := s
  match bytes with
  | [] | [_] => rfl
  | _ :: _ :: _ => simp [nat16, take, List.splitAt_eq, Except.map]

theorem nat32_eq_take (s : Source) :
    s.nat32 = (s.take 4).map fun r => (Bytes.toNat r.1, r.2) := by
  obtain ⟨bytes, remaining⟩ := s
  match bytes with
  | [] | [_] | [_, _] | [_, _, _] => rfl
  | _ :: _ :: _ :: _ :: _ => simp [nat32, take, List.splitAt_eq, Except.map]

theorem number_iff {width x : Nat} :
    ((reading sized (claimed + width) bytes).take width).map (fun r => (Bytes.toNat r.1, r.2)) =
        .ok (x, s) ↔
      x < 256 ^ width ∧
        ∃ rest, bytes = Bytes.ofNat width x ++ rest ∧ s = reading sized claimed rest := by
  constructor
  · intro h
    cases htake : (reading sized (claimed + width) bytes).take width with
    | error e =>
      rw [htake] at h
      cases h
    | ok r =>
      rw [htake] at h
      obtain ⟨rfl, rfl⟩ := Prod.mk.inj (Except.ok.inj h)
      obtain ⟨hlength, rest, rfl, hs⟩ := take_iff.1 htake
      obtain ⟨hhead, hlt⟩ := (Bytes.eq_ofNat_iff hlength).2 rfl
      exact ⟨hlt, rest, by rw [← hhead], hs⟩
  · intro h
    obtain ⟨hlt, rest, rfl, rfl⟩ := h
    rw [take_iff.2 ⟨Bytes.length_ofNat width x, rest, rfl, rfl⟩, Except.map,
      Bytes.toNat_ofNat_of_lt hlt]

theorem nat16_iff {x : Nat} : (reading sized (claimed + 2) bytes).nat16 = .ok (x, s) ↔
    x < 65536 ∧ ∃ rest, bytes = Bytes.ofNat 2 x ++ rest ∧ s = reading sized claimed rest := by
  rw [nat16_eq_take]
  exact number_iff

theorem nat32_iff {x : Nat} : (reading sized (claimed + 4) bytes).nat32 = .ok (x, s) ↔
    x < 4294967296 ∧ ∃ rest, bytes = Bytes.ofNat 4 x ++ rest ∧ s = reading sized claimed rest := by
  rw [nat32_eq_take]
  exact number_iff

theorem reserve_nat32_bind {β : Type} {f : Nat × Source → Except DecodeError β} {b : β} :
    ((reading sized 0 bytes).reserve 4 >>= fun s => s.nat32 >>= f) = .ok b ↔
      ∃ x < 4294967296, ∃ rest, bytes = Bytes.ofNat 4 x ++ rest ∧
        f (x, reading sized 0 rest) = .ok b := by
  rw [reserve_bind, bind_eq_ok_iff]
  constructor
  · intro h
    obtain ⟨-, ⟨x, s⟩, hx, hf⟩ := h
    obtain ⟨hlt, rest, rfl, rfl⟩ := nat32_iff.1 hx
    exact ⟨x, hlt, rest, rfl, hf⟩
  · intro h
    obtain ⟨x, hlt, rest, rfl, hf⟩ := h
    refine ⟨fun _ => ?_, _, nat32_iff.2 ⟨hlt, rest, rfl, rfl⟩, hf⟩
    rw [List.length_append, Bytes.length_ofNat]
    exact Nat.le_add_right _ _

theorem readSection_iff {head : List UInt8} :
    (reading sized 0 bytes).readSection n = .ok (head, s) ↔
      head.length = n ∧ ∃ rest, bytes = head ++ rest ∧ s = reading sized 0 rest := by
  rw [readSection, reserve_bind, take_claimed_iff]
  refine and_iff_right_of_imp fun h _ => ?_
  obtain ⟨rfl, rest, rfl, -⟩ := h
  rw [List.length_append]
  omega

end Source

namespace Header

def cookieBytes (h : Header) : List UInt8 :=
  if h.hasRuns then Bytes.ofNat 2 12347 ++ Bytes.ofNat 2 (h.count - 1)
  else Bytes.ofNat 4 12346 ++ Bytes.ofNat 4 h.count

def Legal (h : Header) : Prop := h.count ≤ 65536 ∧ (h.hasRuns = true → 1 ≤ h.count)

theorem ofNat_runCookie (a : Nat) :
    Bytes.ofNat 4 (12347 + 65536 * a) = Bytes.ofNat 2 12347 ++ Bytes.ofNat 2 a :=
  Bytes.ofNat_add 2 2 a (by decide)

end Header

namespace Source

variable {sized : Bool} {bytes : List UInt8} {s : Source}

theorem header_iff {h : Header} : (reading sized 0 bytes).header = .ok (h, s) ↔
    h.Legal ∧ ∃ rest, bytes = h.cookieBytes ++ rest ∧ s = reading sized 0 rest := by
  rw [header, reserve_nat32_bind]
  dsimp only
  constructor
  · intro hread
    obtain ⟨cookie, hlt, rest, rfl, hread⟩ := hread
    split at hread
    · rename_i hplain
      rw [reserve_nat32_bind] at hread
      obtain ⟨count, -, rest, rfl, hread⟩ := hread
      split at hread
      · cases hread
      · rename_i hle
        cases hread
        refine ⟨⟨Nat.le_of_not_lt hle, nofun⟩, rest, ?_, rfl⟩
        rw [Header.cookieBytes, hplain]
        exact (List.append_assoc _ _ _).symm
    · split at hread
      · rename_i hruns
        cases hread
        unfold runCookie at hruns
        have hcookie : cookie = 12347 + 65536 * (cookie / 65536) := by omega
        refine ⟨⟨?_, fun _ => Nat.le_add_left _ _⟩, rest, ?_, rfl⟩
        · dsimp only
          omega
        · rw [hcookie, Header.ofNat_runCookie, ← hcookie]
          rfl
      · cases hread
  · intro hread
    obtain ⟨⟨hle, hpos⟩, rest, rfl, rfl⟩ := hread
    obtain ⟨count, hasRuns⟩ := h
    dsimp only at hle hpos
    cases hasRuns with
    | false =>
      have hplain : 12346 = plainCookie := rfl
      refine ⟨12346, by decide, _, List.append_assoc _ _ _, ?_⟩
      rw [if_pos hplain]
      refine reserve_nat32_bind.2 ⟨count, by omega, rest, rfl, ?_⟩
      exact if_neg (Nat.not_lt_of_le hle)
    | true =>
      have hcount := hpos rfl
      have hplain : 12347 + 65536 * (count - 1) ≠ plainCookie := by
        unfold plainCookie
        omega
      have hruns : (12347 + 65536 * (count - 1)) % 65536 = runCookie := by
        unfold runCookie
        omega
      have hdiv : (12347 + 65536 * (count - 1)) / 65536 + 1 = count := by omega
      refine ⟨12347 + 65536 * (count - 1), by omega, rest, ?_, ?_⟩
      · rw [Header.ofNat_runCookie]
        rfl
      · rw [if_neg hplain, if_pos hruns, hdiv]

theorem skipOffsets_iff {n : Nat} : skipOffsets n (reading sized 0 bytes) = .ok s ↔
    ∃ offsets : List Nat, offsets.length = n ∧ (∀ offset ∈ offsets, offset < 4294967296) ∧
      ∃ rest, bytes = offsets.flatMap (Bytes.ofNat 4) ++ rest ∧ s = reading sized 0 rest := by
  induction n generalizing bytes with
  | zero =>
    rw [skipOffsets]
    constructor
    · intro h
      cases h
      exact ⟨[], rfl, nofun, bytes, rfl, rfl⟩
    · intro h
      obtain ⟨offsets, hlength, -, rest, rfl, rfl⟩ := h
      rw [List.length_eq_zero_iff.1 hlength]
      rfl
  | succ n ih =>
    rw [skipOffsets, reserve_nat32_bind]
    constructor
    · intro h
      obtain ⟨offset, hlt, rest, rfl, h⟩ := h
      obtain ⟨offsets, hlength, hall, rest, rfl, rfl⟩ := ih.1 h
      refine ⟨offset :: offsets, congrArg Nat.succ hlength, ?_, rest, ?_, rfl⟩
      · exact List.forall_mem_cons.2 ⟨hlt, hall⟩
      · rw [List.flatMap_cons, List.append_assoc]
    · intro h
      obtain ⟨offsets, hlength, hall, rest, rfl, rfl⟩ := h
      obtain ⟨offset, offsets, rfl⟩ := List.exists_cons_of_length_eq_add_one hlength
      obtain ⟨hlt, hall⟩ := List.forall_mem_cons.1 hall
      rw [List.flatMap_cons, List.append_assoc]
      exact ⟨offset, hlt, _, rfl, ih.2 ⟨offsets, Nat.succ.inj hlength, hall, rest, rfl, rfl⟩⟩

end Source

namespace Preamble

def bytes (p : Preamble) (offsets : List Nat) : List UInt8 :=
  p.header.cookieBytes ++ p.flags.toList ++ p.descriptions ++ offsets.flatMap (Bytes.ofNat 4)

structure Legal (p : Preamble) (offsets : List Nat) : Prop where
  header : p.header.Legal
  flags : p.flags.size = p.header.flagBytes
  descriptions : p.descriptions.length = 4 * p.header.count
  offset_count : offsets.length = if p.header.hasOffsets then p.header.count else 0
  offset_lt : ∀ o ∈ offsets, o < 4294967296

end Preamble

namespace Source

variable {sized : Bool} {bytes : List UInt8} {s : Source}

theorem passOffsets_iff {β : Type} (h : Header) {f : Source → Except DecodeError β} {b : β} :
    (if h.hasOffsets then skipOffsets h.count (reading sized 0 bytes) >>= f
        else (.ok (reading sized 0 bytes) >>= f)) = .ok b ↔
      ∃ offsets : List Nat, (offsets.length = if h.hasOffsets then h.count else 0) ∧
        (∀ o ∈ offsets, o < 4294967296) ∧
        ∃ rest, bytes = offsets.flatMap (Bytes.ofNat 4) ++ rest ∧
          f (reading sized 0 rest) = .ok b := by
  split
  · rw [bind_eq_ok_iff]
    constructor
    · intro hread
      obtain ⟨s, hs, hf⟩ := hread
      obtain ⟨offsets, hlength, hlt, rest, rfl, rfl⟩ := skipOffsets_iff.1 hs
      exact ⟨offsets, hlength, hlt, rest, rfl, hf⟩
    · intro hread
      obtain ⟨offsets, hlength, hlt, rest, rfl, hf⟩ := hread
      exact ⟨_, skipOffsets_iff.2 ⟨offsets, hlength, hlt, rest, rfl, rfl⟩, hf⟩
  · constructor
    · intro hf
      exact ⟨[], rfl, nofun, bytes, rfl, hf⟩
    · intro hread
      obtain ⟨offsets, hlength, -, rest, rfl, hf⟩ := hread
      rw [List.length_eq_zero_iff.1 hlength]
      exact hf

theorem preamble_iff {p : Preamble} : (reading sized 0 bytes).preamble = .ok (p, s) ↔
    ∃ offsets, p.Legal offsets ∧
      ∃ rest, bytes = p.bytes offsets ++ rest ∧ s = reading sized 0 rest := by
  rw [preamble, bind_eq_ok_iff]
  constructor
  · intro hread
    obtain ⟨⟨header, s'⟩, hheader, hread⟩ := hread
    obtain ⟨hlegal, rest, rfl, rfl⟩ := header_iff.1 hheader
    obtain ⟨⟨flags, s'⟩, hflags, hread'⟩ := bind_eq_ok_iff.1 hread
    obtain ⟨hflagsLength, rest, rfl, rfl⟩ := readSection_iff.1 hflags
    obtain ⟨⟨descriptions, s'⟩, hdescriptions, hpass⟩ := bind_eq_ok_iff.1 hread'
    obtain ⟨hlength, rest, rfl, rfl⟩ := readSection_iff.1 hdescriptions
    rw [passOffsets_iff header] at hpass
    obtain ⟨offsets, hoffsets, hlt, rest, rfl, hend⟩ := hpass
    cases hend
    refine ⟨offsets, ⟨hlegal, hflagsLength, hlength, hoffsets, hlt⟩, rest, ?_, rfl⟩
    simp only [Preamble.bytes, List.append_assoc]
  · intro hread
    obtain ⟨offsets, hlegal, rest, rfl, rfl⟩ := hread
    obtain ⟨header, flags, descriptions⟩ := p
    simp only [Preamble.bytes, List.append_assoc]
    refine ⟨_, header_iff.2 ⟨hlegal.header, _, rfl, rfl⟩, bind_eq_ok_iff.2 ?_⟩
    refine ⟨_, readSection_iff.2 ⟨hlegal.flags, _, rfl, rfl⟩, bind_eq_ok_iff.2 ?_⟩
    refine ⟨_, readSection_iff.2 ⟨hlegal.descriptions, _, rfl, rfl⟩, ?_⟩
    exact (passOffsets_iff header).2 ⟨offsets, hlegal.offset_count, hlegal.offset_lt, rest, rfl, rfl⟩

end Source

end ChunkedSet
