import ChunkedSet.Proofs.ManySets
import ChunkedSet.Proofs.Spellings

/-!
# Sets without runs

A settled chunk that did not come as runs is an array or a block by the number of its positions
alone. No operation makes runs of such chunks, so a set without runs is determined by its values,
whatever led to it.
-/

namespace ChunkedSet

variable {c d : Chunk} {S : Finset Nat} {s : IntSet}

namespace Chunk

theorem Follows.isRuns (h : c.Follows .plain) : c.isRuns = false := by
  have hkind := h.2
  cases c with
  | array a => rfl
  | block b => rfl
  | runs l =>
    rw [kind, Kind.plain] at hkind
    split at hkind
    · cases hkind
    · cases hkind

theorem settle_follows (h : c.Denotes S) (hruns : c.isRuns = false) : c.settle.Follows .plain := by
  have hden := settle_denotes h
  refine ⟨wellFormed_of_fits hden.valid (fits_settle h), ?_⟩
  rw [settle_kind h hruns, hden.support_eq]

theorem WellFormed.follows (hwf : c.WellFormed) (hruns : c.kind ≠ .runs) : c.Follows .plain := by
  obtain ⟨S, hS⟩ := hwf.valid.denotes
  refine ⟨hwf, ?_⟩
  rw [hwf.kind_eq hS hruns, hS.support_eq]

end Chunk

namespace Operation

theorem isRuns_ontoLeft (op : Operation) (hc : c.isRuns = false) (hd : d.isRuns = false) :
    (op.ontoLeft c d).isRuns = false := by
  cases op with
  | union => rw [ontoLeft, Chunk.isRuns_unionOnto, hc, hd, Bool.or_self, Bool.false_and]
  | intersection => rw [ontoLeft, Chunk.isRuns_intersectionOnto, hc, Bool.false_and]
  | difference =>
    cases c with
    | array a => cases d <;> rfl
    | block b => cases d <;> rfl
    | runs l => cases hc
  | symmetricDifference =>
    rw [ontoLeft, Chunk.isRuns_symmetricDifferenceOnto, hc, hd, Bool.or_self, Bool.false_and]

theorem keeps_plain (op : Operation) : op.Keeps (Chunk.Follows .plain) := by
  intro c d e S T hc hd hcplain hdplain he
  have hruns : e.isRuns = false := by
    rcases he with rfl | ⟨-, rfl⟩
    · exact op.isRuns_ontoLeft hcplain.isRuns hdplain.isRuns
    · exact op.isRuns_ontoLeft hdplain.isRuns hcplain.isRuns
  exact Chunk.settle_follows (denotes_of_either hc hd he) hruns

end Operation

theorem LazyChunk.repair_words_follows (ws : Words) : (words ws).repair.Follows .plain :=
  Chunk.settle_follows (words_denotes ws) rfl

theorem IntSet.WellFormed.plain (h : s.WellFormed) (hruns : .runs ∉ s.kinds) :
    s.Denotes (Chunk.Follows .plain) s.slots := by
  refine denotes_slots h.1 fun e he => ?_
  obtain ⟨hkey, hwf, hempty⟩ := h.2 e he
  exact ⟨hkey, hwf.valid, hwf.follows fun hkind => hruns (List.mem_map.2 ⟨e, he, hkind⟩), hempty⟩

end ChunkedSet
