import ChunkedSet.Proofs.Decode

/-!
# Reading without checks

Reading without checks leaves out three checks of the content of chunks and nothing else: it goes
through the same sections, and refuses all else that checked reading refuses. What it returns is
counted from the content, so that a wrong declared size leaves no trace in runs and blocks.
-/

namespace ChunkedSet

theorem Payload.Shaped.size_eq {flagged : Bool} {declared : Nat} {p : Payload}
    (h : p.Shaped flagged declared) :
    (∀ l, p.chunk = .runs l →
        p.chunk.size = (l.toList.map fun r => r.last - r.first + 1).sum) ∧
      ∀ b, p.chunk = .block b → p.chunk.size = b.words.popcount := by
  cases p with
  | runs pairs =>
    refine ⟨fun l hl => ?_, fun _ => nofun⟩
    cases hl
    exact RunList.size_eq_sum _
  | array values => exact ⟨fun _ => nofun, fun _ => nofun⟩
  | words list =>
    refine ⟨fun _ => nofun, fun b hb => ?_⟩
    cases hb
    rw [Words.popcount_eq_sum, Words.toList_ofList h.2.2]
    rfl

theorem decode_unchecked (bytes : List UInt8) : Faulted (decode .reader bytes) ∨
    decode .unchecked bytes = decode .reader bytes := by
  rw [decode, decode]
  rcases decodeWithRest_unchecked bytes with hfault | hsame
  · obtain ⟨e, herror, he⟩ := hfault
    rw [herror]
    exact .inl ⟨e, rfl, he⟩
  · rw [hsame]
    exact .inr rfl

/-- Reading without checks returns what checked reading returns, and is refused for the same
reason, save that it finds no fault with runs, arrays and sizes. The runs and blocks that it
returns have the size of their content. -/
theorem decode_unchecked_agrees (bytes : List UInt8) :
    (∀ s, decode .reader bytes = .ok s → decode .unchecked bytes = .ok s) ∧
      (∀ e, decode .reader bytes = .error e → e.isContentFault = false →
        decode .unchecked bytes = .error e) ∧
      (∀ e, decode .unchecked bytes = .error e → decode .reader bytes = .error e ∨
        ∃ e', decode .reader bytes = .error e' ∧ e'.isContentFault = true) ∧
      ∀ s rest, decodeWithRest .unchecked bytes = .ok (s, rest) →
        (∃ m : Image, m.Readable ∧ bytes = m.bytes ++ rest ∧ s = m.toSet) ∧
          ∀ e ∈ s.entries.toList,
            (∀ l, e.chunk = .runs l →
              e.size = (l.toList.map fun r => r.last - r.first + 1).sum) ∧
            ∀ b, e.chunk = .block b → e.size = b.words.popcount := by
  refine ⟨fun s hs => ?_, fun e he hfault => ?_, fun e he => ?_, fun s rest hread => ?_⟩
  · rcases decode_unchecked bytes with ⟨e, herror, -⟩ | hsame
    · rw [hs] at herror
      cases herror
    · rw [hsame, hs]
  · rcases decode_unchecked bytes with ⟨e', herror, hfault'⟩ | hsame
    · rw [he] at herror
      cases herror
      rw [hfault] at hfault'
      cases hfault'
    · rw [hsame, he]
  · rcases decode_unchecked bytes with hfault | hsame
    · exact .inr hfault
    · exact .inl (hsame.symm.trans he)
  · obtain ⟨m, hm, -, hbytes, rfl⟩ := exists_image hread
    refine ⟨⟨m, hm, hbytes, rfl⟩, fun e he => ?_⟩
    obtain ⟨i, hi, rfl⟩ := List.mem_map.1 he
    obtain ⟨index, hindex⟩ := List.mem_iff_getElem?.1 hi
    exact (hm.payload index i hindex).size_eq

theorem decode_unchecked_agrees_miscounted :
    decode .reader [59, 48, 0, 0, 1, 0, 0, 2, 0, 1, 0, 10, 0, 4, 0] =
        .error (.sizeMismatch 0 3 5) ∧
      decodeWithRest .unchecked [59, 48, 0, 0, 1, 0, 0, 2, 0, 1, 0, 10, 0, 4, 0] =
        .ok (⟨#[⟨0, .runs ⟨#[⟨10, 14⟩]⟩⟩]⟩, []) ∧
      Entry.size ⟨0, .runs ⟨#[⟨10, 14⟩]⟩⟩ =
        ([⟨10, 14⟩].map fun r : Run => r.last - r.first + 1).sum ∧
      decode .reader [59, 48, 0, 0, 1, 0, 0, 2, 0, 0, 0] = .error (.zeroRuns 0) ∧
      decode .unchecked [59, 48, 0, 0, 1, 0, 0, 2, 0, 0, 0] = .error (.zeroRuns 0) := by
  have hread : decodeWithRest .unchecked [59, 48, 0, 0, 1, 0, 0, 2, 0, 1, 0, 10, 0, 4, 0] =
      .ok (⟨#[⟨0, .runs ⟨#[⟨10, 14⟩]⟩⟩]⟩, []) := rfl
  have hempty : decode .reader [59, 48, 0, 0, 1, 0, 0, 2, 0, 0, 0] = .error (.zeroRuns 0) := rfl
  obtain ⟨-, hcounted⟩ := (decode_unchecked_agrees _).2.2.2 _ _ hread
  exact ⟨rfl, hread, (hcounted _ List.mem_cons_self).1 _ rfl, hempty,
    (decode_unchecked_agrees _).2.1 _ hempty rfl⟩

end ChunkedSet
