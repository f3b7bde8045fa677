import ChunkedSet.Proofs.Canonical

/-!
# Sizes after a change to the shortest representations

No payload grows when every chunk takes its shortest representation. The header may: its format
changes with the first list of runs to appear and with the last one to be given up, and what the
payloads save may be less than that costs.
-/

namespace ChunkedSet

variable {c : Chunk} {S : Finset Nat} {s : IntSet} {n : Nat}

namespace Header

theorem bytes_plain (n : Nat) : bytes ⟨n, false⟩ = 8 + 8 * n := by
  simp only [bytes, flagBytes, hasOffsets, Bool.not_false, Bool.true_or, Bool.false_eq_true,
    if_true, if_false]
  omega

theorem bytes_runs (n : Nat) :
    bytes ⟨n, true⟩ = 4 + (n + 7) / 8 + 4 * n + if n < 4 then 0 else 4 * n := by
  have hoffsets : hasOffsets ⟨n, true⟩ = decide (4 ≤ n) := rfl
  rw [bytes, hoffsets, flagBytes]
  by_cases hfew : n < 4
  · simp [hfew]
  · simp [hfew, Nat.not_lt.1 hfew]

end Header

theorem Kind.even_of_payload? {kind : Kind} (h : kind.payload? S = some n) : n % 2 = 0 := by
  cases kind with
  | array =>
    rw [payload?, Option.ite_none_right_eq_some] at h
    have heq := Option.some.inj h.2
    omega
  | block =>
    have heq := Option.some.inj h
    omega
  | runs =>
    have heq := Option.some.inj h
    omega

namespace Chunk

theorem optimize_wellFormed (h : c.Denotes S) (hwf : c.WellFormed) : c.optimize.1.WellFormed := by
  rcases optimize_eq_or_fits h hwf with heq | hfits
  · rwa [heq]
  · exact wellFormed_of_fits (optimize_denotes h).valid hfits

/-- Runs are only chosen if they are shorter, and then by two bytes, as all payloads are even. -/
theorem bytes_optimize (h : c.Denotes S) (hwf : c.WellFormed) :
    c.optimize.1.bytes ≤ c.bytes ∧
      (c.kind ≠ .runs → c.optimize.1.kind = .runs → c.optimize.1.bytes + 2 ≤ c.bytes) := by
  have hpayload := hwf.payload? h
  have hpayload' := (optimize_wellFormed h hwf).payload? (optimize_denotes h)
  obtain ⟨hkind, -, hsame⟩ := optimize_spec h hwf
  rw [length_encode] at hpayload hpayload'
  by_cases heq : c.kind = .shortest S
  · rw [hsame heq]
    exact ⟨Nat.le_refl _, fun hne hruns => absurd hruns hne⟩
  · obtain ⟨n, hn, hleast⟩ := Kind.smallest_shortest S
    obtain ⟨hle, hlt⟩ := hleast c.kind heq _ hpayload
    rw [hkind, hn] at hpayload'
    obtain rfl := Option.some.inj hpayload'
    refine ⟨hle, fun _ hruns => ?_⟩
    have hstrict := hlt (hkind ▸ hruns)
    have heven := Kind.even_of_payload? hpayload
    have heven' := Kind.even_of_payload? hn
    omega

end Chunk

namespace IntSet

def saved (s : IntSet) : Nat :=
  (s.entries.toList.map fun e => e.chunk.bytes - e.chunk.optimize.1.bytes).sum

theorem header_eq (s : IntSet) :
    Header.ofSet s = ⟨s.entries.size, decide (.runs ∈ s.kinds)⟩ := by
  have hruns : s.entries.any (·.chunk.isRuns) = decide (.runs ∈ s.kinds) := by
    rw [Bool.eq_iff_iff, decide_eq_true_eq, kinds, List.mem_map, ← Array.any_toList,
      List.any_eq_true]
    exact exists_congr fun e => and_congr_right fun _ => Chunk.isRuns_iff
  rw [Header.ofSet, hruns]

theorem bytes_eq (s : IntSet) : s.bytes =
    Header.bytes ⟨s.entries.size, decide (.runs ∈ s.kinds)⟩ +
      (s.entries.toList.map (·.chunk.bytes)).sum := by
  rw [bytes, ← Array.foldl_toList, Words.foldl_add_eq_sum, Nat.zero_add, header_eq]

theorem size_entries_optimize (s : IntSet) : s.optimize.1.entries.size = s.entries.size := by
  have hkeys := congrArg List.length (mapChunks_keys s Chunk.optimize)
  rwa [keys, keys, List.length_map, List.length_map] at hkeys

theorem WellFormed.bytes_optimize (hs : s.WellFormed) {e : Entry} (he : e ∈ s.entries.toList) :
    e.chunk.optimize.1.bytes ≤ e.chunk.bytes ∧ (e.chunk.kind ≠ .runs →
      e.chunk.optimize.1.kind = .runs → e.chunk.optimize.1.bytes + 2 ≤ e.chunk.bytes) := by
  obtain ⟨S, hS⟩ := (hs.valid.2 e he).2.1.denotes
  exact Chunk.bytes_optimize hS (hs.2 e he).2.1

theorem payloads_optimize (hs : s.WellFormed) :
    (s.optimize.1.entries.toList.map (·.chunk.bytes)).sum + s.saved =
      (s.entries.toList.map (·.chunk.bytes)).sum := by
  rw [optimize, mapChunks_eq, List.map_map, saved, ← List.sum_map_add]
  refine congrArg List.sum (List.map_congr_left fun e he => ?_)
  have hle := (hs.bytes_optimize he).1
  simp only [Function.comp_apply]
  omega

theorem two_le_saved (hs : s.WellFormed) (hnone : .runs ∉ s.kinds)
    (hruns : .runs ∈ s.optimize.1.kinds) : 2 ≤ s.saved := by
  rw [kinds, optimize, mapChunks_eq, List.map_map] at hruns
  obtain ⟨e, he, hkind⟩ := List.mem_map.1 hruns
  have hne : e.chunk.kind ≠ .runs := fun heq => hnone (List.mem_map.2 ⟨e, he, heq⟩)
  have hlt := (hs.bytes_optimize he).2 hne hkind
  have hle : e.chunk.bytes - e.chunk.optimize.1.bytes ≤ s.saved :=
    List.le_sum_of_mem (List.mem_map_of_mem he)
  omega

/-- The size does not grow if the format of the header stays, or if what the payloads save makes
up for the flags that runs need, or for the count and the offsets that they spare. -/
theorem bytes_optimize_le_iff (hs : s.WellFormed) :
    (∀ e ∈ s.entries.toList, e.chunk.optimize.1.bytes ≤ e.chunk.bytes) ∧
      (s.optimize.1.bytes ≤ s.bytes ↔
        (.runs ∉ s.kinds → .runs ∈ s.optimize.1.kinds →
          (s.entries.size + 7) / 8 ≤ 4 + s.saved) ∧
        (.runs ∈ s.kinds → .runs ∉ s.optimize.1.kinds →
          4 + (if s.entries.size < 4 then 4 * s.entries.size else 0) ≤
            (s.entries.size + 7) / 8 + s.saved)) ∧
      (s.entries.size ≤ 48 → (.runs ∈ s.kinds → 25 ≤ s.entries.size) →
        s.optimize.1.bytes ≤ s.bytes) ∧
      s.optimize.1.bytes ≤ s.bytes + 8186 := by
  have hcount : s.entries.size ≤ 65536 := hs.valid.count_le
  have hpayloads := payloads_optimize hs
  have hbytes := bytes_eq s
  have hbytes' := bytes_eq s.optimize.1
  rw [size_entries_optimize] at hbytes'
  refine ⟨fun e he => (hs.bytes_optimize he).1, ?_⟩
  -- the header depends on whether there are runs, before the change and after it
  by_cases hruns : .runs ∈ s.kinds
  · rw [decide_eq_true hruns, Header.bytes_runs] at hbytes
    by_cases hruns' : .runs ∈ s.optimize.1.kinds
    · rw [decide_eq_true hruns', Header.bytes_runs] at hbytes'
      simp only [hruns, hruns', not_true, false_implies, implies_true, and_self, iff_true]
      omega
    · rw [decide_eq_false hruns', Header.bytes_plain] at hbytes'
      simp only [hruns, hruns', not_true, not_false_iff, false_implies, true_implies, true_and]
      split_ifs at hbytes ⊢ <;> omega
  · rw [decide_eq_false hruns, Header.bytes_plain] at hbytes
    by_cases hruns' : .runs ∈ s.optimize.1.kinds
    · have hsaved := two_le_saved hs hruns hruns'
      rw [decide_eq_true hruns', Header.bytes_runs] at hbytes'
      simp only [hruns, hruns', not_false_iff, false_implies, true_implies, and_true]
      split_ifs at hbytes' <;> omega
    · rw [decide_eq_false hruns', Header.bytes_plain] at hbytes'
      simp only [hruns, hruns', not_false_iff, false_implies, implies_true, and_self, iff_true]
      omega

/-- The first set gains a run. The second one is a single run of three values, which is no shorter
than the array, and the count and an offset come on top. -/
theorem bytes_optimize_le_iff_few :
    let s : IntSet := ⟨#[⟨0, .array ⟨#[1, 2, 3, 4, 9]⟩⟩, ⟨7, .array ⟨#[0, 1, 2, 3]⟩⟩]⟩
    let t : IntSet := ⟨#[⟨0, .runs ⟨#[⟨0, 2⟩]⟩⟩]⟩
    s.WellFormed ∧ t.WellFormed ∧ s.optimize.1.bytes ≤ s.bytes ∧ ¬t.optimize.1.bytes ≤ t.bytes := by
  intro s t
  have hs : s.WellFormed := by decide
  have ht : t.WellFormed := by decide
  refine ⟨hs, ht, (bytes_optimize_le_iff hs).2.1.2 ⟨by decide, by decide⟩, fun hle => ?_⟩
  exact absurd ((bytes_optimize_le_iff ht).2.1.1 hle).2 (by decide)

/-- One run of four values saves two bytes, and the flags of 49 entries take three bytes more than
the count that is no longer written. -/
theorem bytes_lt_bytes_optimize :
    let single : Nat → Entry := fun k => ⟨k, .array ⟨#[0]⟩⟩
    let s : IntSet := ⟨#[⟨0, .array ⟨#[0, 1, 2, 3]⟩⟩] ++ (Array.range' 1 48).map single⟩
    s.WellFormed ∧ s.bytes = 504 ∧ s.optimize.1.bytes = 505 := by
  intro single s
  exact ⟨by decide +kernel, by decide +kernel, by decide +kernel⟩

end IntSet

end ChunkedSet
