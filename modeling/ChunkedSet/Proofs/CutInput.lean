import ChunkedSet.Proofs.Encode
import ChunkedSet.Proofs.SliceReading
import ChunkedSet.Proofs.UncheckedReading

/-!
# Input that is cut off

A reader of unknown length that is refused anything but the end of the input is refused the same
however the input goes on, and what it returns is returned again. So a cut of what was written can
only end inside it, for otherwise reading would have stopped before the end of the whole.
-/

namespace ChunkedSet

namespace Source

variable {α β : Type} {R : α → β → Prop} {more : List UInt8} {claimed n : Nat} {s t : Source}

/-- Behind the end of the shorter input, anything may follow. -/
def ending : Parting where
  Parts e _ := e = .endOfInput
  bind h _ := h

def Continued (more : List UInt8) (s t : Source) : Prop :=
  ∃ bytes : List UInt8, s = reading false 0 bytes ∧ t = reading false 0 (bytes ++ more)

theorem Continued.take (h : Continued more s t) :
    ending.Along (SameResult (Continued more)) (s.take n) (t.take n) := by
  obtain ⟨bytes, rfl, rfl⟩ := h
  by_cases hn : n ≤ bytes.length
  · have hmore : n ≤ (bytes ++ more).length := by
      rw [List.length_append]
      omega
    have hhead : (bytes ++ more).take n = bytes.take n := List.take_append_of_le_length hn
    have hrest : (bytes ++ more).drop n = bytes.drop n ++ more := List.drop_append_of_le_length hn
    rw [take_of_le (s := reading false 0 bytes) hn,
      take_of_le (s := reading false 0 (bytes ++ more)) hmore]
    simp only [reading, hhead, hrest]
    exact .ok ⟨_, bytes.drop n, rfl, rfl⟩
  · rw [take_of_lt (s := reading false 0 bytes) (Nat.lt_of_not_le hn)]
    exact .parted rfl

/-- Claiming a section of unknown length is void, so that the reading of it is all there is. -/
theorem Continued.reserve {f : Source → Except DecodeError α} {g : Source → Except DecodeError β}
    (h : Continued more s t) (hfits : ∀ s t, Continued more s t → ending.Along R (f s) (g t)) :
    ending.Along R (s.reserve n >>= f) (t.reserve n >>= g) := by
  obtain ⟨bytes, rfl, rfl⟩ := h
  exact hfits _ _ ⟨bytes, rfl, rfl⟩

def continued (more : List UInt8) : Companions :=
  ⟨ending, fun _ => Continued more, Continued.take, fun h hfits _ => h.reserve hfits⟩

end Source

theorem decodeWithRest_continued (bytes more : List UInt8) :
    Source.ending.Along (fun r q => q = (r.1, r.2 ++ more)) (decodeWithRest .reader bytes)
      (decodeWithRest .reader (bytes ++ more)) := by
  have hstart : (Source.continued more).Beside 0 (.ofBytes .reader bytes)
      (.ofBytes .reader (bytes ++ more)) := ⟨bytes, rfl, rfl⟩
  refine (Companions.decodeWithRest_along rfl hstart).mono fun r q h => ?_
  obtain ⟨hset, _, _, ⟨bytes, rfl, rfl⟩, hrest, hrest'⟩ := h
  rw [hset, hrest]
  exact Prod.ext rfl hrest'

theorem decode_cut {p q : List UInt8} {s : IntSet}
    (h : decodeWithRest .reader (p ++ q) = .ok (s, [])) (hq : q ≠ []) :
    decode .reader p = .error .endOfInput := by
  have hcontinued := decodeWithRest_continued p q
  rw [h] at hcontinued
  rw [decode]
  generalize decodeWithRest .reader p = x at hcontinued ⊢
  cases hcontinued with
  | ok h => exact absurd (List.append_eq_nil_iff.1 (Prod.mk.inj h).2.symm).2 hq
  | parted h =>
    obtain rfl := h
    rfl

/-- A written set that is cut short is no written set: all ways of reading come to the end of the
input and return nothing. -/
theorem decode_strict_prefix {s : IntSet} (h : s.WellFormed) {p : List UInt8}
    (hp : p <+: s.encode) (hlt : p.length < s.encode.length) :
    decode .reader p = .error .endOfInput ∧ decode .unchecked p = .error .endOfInput ∧
      ∃ needed remaining, remaining < needed ∧
        decode .slice p = .error (.truncated needed remaining) := by
  obtain ⟨q, hq⟩ := hp
  have hne : q ≠ [] := by
    rintro rfl
    rw [← hq, List.append_nil] at hlt
    exact Nat.lt_irrefl _ hlt
  have hwhole := (Image.legal_ofSet h).decodeWithRest .reader []
  rw [Image.bytes_ofSet h.valid, Image.toSet_ofSet h.valid, List.append_nil, ← hq] at hwhole
  have hcut := decode_cut hwhole hne
  refine ⟨hcut, ?_, ?_⟩
  · rcases decode_unchecked p with ⟨e, herror, hfault⟩ | hsame
    · rw [hcut] at herror
      cases herror
      cases hfault
    · rw [hsame, hcut]
  · have hagree := decode_agree p
    rw [hcut] at hagree
    generalize decode .slice p = x at hagree ⊢
    cases hagree with
    | refused he => cases he
    | parted h =>
      obtain ⟨needed, remaining, hlt, rfl, -⟩ := h
      exact ⟨needed, remaining, hlt, rfl⟩

theorem decode_strict_prefix_runs :
    let s : IntSet := ⟨#[⟨0, .array ⟨#[1, 5]⟩⟩, ⟨7, .runs ⟨#[⟨10, 14⟩, ⟨20, 65535⟩]⟩⟩]⟩
    let p : List UInt8 := [59, 48, 1, 0, 2, 0, 0, 1, 0, 7, 0, 240, 255, 1, 0, 5, 0, 2, 0, 10, 0, 4, 0]
    s.WellFormed ∧ p <+: s.encode ∧ p.length < s.encode.length ∧
      decode .reader p = .error .endOfInput ∧ decode .unchecked p = .error .endOfInput ∧
      ∃ needed remaining, remaining < needed ∧
        decode .slice p = .error (.truncated needed remaining) := by
  intro s p
  have hs : s.WellFormed := by decide
  have hencode : s.encode = p ++ [20, 0, 235, 255] := by cbv
  have hp : p <+: s.encode := ⟨_, hencode.symm⟩
  have hlt : p.length < s.encode.length := by
    rw [hencode]
    decide
  exact ⟨hs, hp, hlt, decode_strict_prefix hs hp hlt⟩

end ChunkedSet
