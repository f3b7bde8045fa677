import ChunkedSet.Proofs.TwoReadings

/-!
# Reading from a slice and from a reader

A source of known length refuses a section that is too long before any of it is read. A source of
unknown length begins to read such a section and fails inside it: at the end of the input, or at a
run before the end that passes the last position. Every section is read up to its last byte, so
this is the only difference between the two.
-/

namespace ChunkedSet

namespace Source

variable {α β : Type} {R : α → β → Prop} {claimed n : Nat} {s t : Source}

/-- A section is refused, and the reader fails in it. -/
def slicing : Parting where
  Parts e y := ∃ needed remaining, remaining < needed ∧ e = .truncated needed remaining ∧ CutShort y
  bind h g := by
    obtain ⟨needed, remaining, hlt, he, hy⟩ := h
    exact ⟨needed, remaining, hlt, he, hy.bind g⟩

def Sliced (claimed : Nat) (s t : Source) : Prop :=
  ∃ bytes : List UInt8, claimed ≤ bytes.length ∧
    s = reading true claimed bytes ∧ t = reading false claimed bytes

theorem Sliced.take (h : Sliced (claimed + n) s t) :
    slicing.Along (SameResult (Sliced claimed)) (s.take n) (t.take n) := by
  obtain ⟨bytes, hle, rfl, rfl⟩ := h
  have htake (sized : Bool) : (reading sized (claimed + n) bytes).take n =
      .ok (bytes.take n, reading sized claimed (bytes.drop n)) :=
    take_iff.2 ⟨List.length_take_of_le (by omega), _, (List.take_append_drop n bytes).symm, rfl⟩
  rw [htake, htake]
  refine .ok ⟨_, bytes.drop n, ?_, rfl, rfl⟩
  rw [List.length_drop]
  omega

theorem Sliced.reserve {f : Source → Except DecodeError α} {g : Source → Except DecodeError β}
    (h : Sliced 0 s t) (hfits : ∀ s t, Sliced n s t → slicing.Along R (f s) (g t))
    (hshort : ∀ s : Source, s.bytes.length < n → CutShort (g s)) :
    slicing.Along R (s.reserve n >>= f) (t.reserve n >>= g) := by
  obtain ⟨bytes, -, rfl, rfl⟩ := h
  by_cases hn : n ≤ bytes.length
  · rw [reserve_iff.2 ⟨fun _ => hn, rfl⟩]
    exact hfits _ _ ⟨bytes, hn, rfl, rfl⟩
  · have hlt : bytes.length < n := Nat.lt_of_not_le hn
    have hrefused : (reading true 0 bytes).reserve n = .error (.truncated n bytes.length) :=
      if_pos hlt
    rw [hrefused]
    exact .parted ⟨_, _, hlt, rfl, hshort _ hlt⟩

def sliced : Companions := ⟨slicing, Sliced, Sliced.take, Sliced.reserve⟩

end Source

theorem decode_agree (bytes : List UInt8) :
    Source.slicing.Along Eq (decode .slice bytes) (decode .reader bytes) := by
  have hstart : Source.sliced.Beside 0 (.ofBytes .slice bytes) (.ofBytes .reader bytes) :=
    ⟨bytes, Nat.zero_le _, rfl, rfl⟩
  have hsame : DecodeMode.slice.isChecked = DecodeMode.reader.isChecked := rfl
  exact (Companions.decodeWithRest_along hsame hstart).map fun _ _ h => h.1

/-- A slice and a reader of the same bytes are read to the same set, or refused for the same
reason, save that the slice reports a section that is too long before the reader fails in it. -/
theorem decode_slice_agrees (bytes : List UInt8) :
    (∀ s, decode .slice bytes = .ok s ↔ decode .reader bytes = .ok s) ∧
      decode .slice bytes ≠ .error .endOfInput ∧
      (∀ e, decode .slice bytes = .error e →
        (∀ needed remaining, e ≠ .truncated needed remaining) → decode .reader bytes = .error e) ∧
      ∀ needed remaining, decode .slice bytes = .error (.truncated needed remaining) →
        remaining < needed ∧ (decode .reader bytes = .error .endOfInput ∨
          ∃ key, decode .reader bytes = .error (.runOverflow key)) := by
  have hagree := decode_agree bytes
  generalize decode .slice bytes = x at hagree ⊢
  generalize decode .reader bytes = y at hagree ⊢
  cases hagree with
  | ok h =>
    subst h
    exact ⟨fun _ => Iff.rfl, nofun, fun _ => nofun, fun _ _ => nofun⟩
  | refused he =>
    refine ⟨fun _ => Iff.rfl, fun h => ?_, fun _ h _ => h, fun needed remaining h => ?_⟩
    · cases h
      cases he
    · cases h
      cases he
  | parted h =>
    obtain ⟨_, _, hlt, rfl, hy⟩ := h
    refine ⟨fun s => ⟨nofun, fun h => ?_⟩, nofun, fun e h he => ?_, fun needed remaining h => ?_⟩
    · rcases hy with rfl | ⟨key, rfl⟩
      · cases h
      · cases h
    · exact absurd (Except.error.inj h).symm (he _ _)
    · cases h
      exact ⟨hlt, hy⟩

theorem decode_slice_agrees_cut :
    decode .slice [59, 48, 0, 0, 1, 0, 0, 4, 0, 2, 0, 255, 255, 5, 0] =
        .error (.truncated 8 4) ∧
      decode .reader [59, 48, 0, 0, 1, 0, 0, 4, 0, 2, 0, 255, 255, 5, 0] =
        .error (.runOverflow 0) ∧ 4 < 8 := by
  have hslice : decode .slice [59, 48, 0, 0, 1, 0, 0, 4, 0, 2, 0, 255, 255, 5, 0] =
      .error (.truncated 8 4) := rfl
  obtain ⟨hlt, -⟩ := (decode_slice_agrees _).2.2.2 8 4 hslice
  exact ⟨hslice, rfl, hlt⟩

end ChunkedSet
