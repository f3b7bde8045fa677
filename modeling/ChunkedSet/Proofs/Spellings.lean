import ChunkedSet.Proofs.Canonical
import ChunkedSet.Proofs.Pairs

/-!
# The spellings of an operation

The spellings of an operation differ in whose storage the results take over, and some of them
exchange the operands. The raw results may then differ in kind, but only between arrays and
blocks, and of these the policy picks one by the number of positions.
-/

namespace ChunkedSet

variable {S T : Finset Nat} {c d e : Chunk}

namespace Chunk

theorem settle_kind (h : c.Denotes S) (hruns : c.isRuns = false) : c.settle.kind = .plain S := by
  have hsize := h.size
  rw [settle]
  split
  · rename_i hfits
    cases c with
    | array a =>
      have hle : S.card ≤ 4096 := hsize ▸ of_decide_eq_true hfits
      simp [kind, Kind.plain, hle]
    | block b =>
      have hlt : 4096 < S.card := hsize ▸ of_decide_eq_true hfits
      simp [kind, Kind.plain, hlt]
    | runs l => cases hruns
  · exact settlePlain_kind h

/-- Once settled, chunks with the same positions are the same if both or neither came as runs. -/
theorem settle_eq (hc : c.Denotes S) (hd : d.Denotes S) (hruns : c.isRuns = d.isRuns) :
    c.settle = d.settle := by
  cases hcase : c.isRuns with
  | false =>
    rw [hcase] at hruns
    apply (settle_denotes hc).eq_of_kind (settle_denotes hd)
    rw [settle_kind hc hcase, settle_kind hd hruns.symm]
  | true =>
    have hdcase : d.isRuns = true := hruns.symm.trans hcase
    have hblock : ∀ c : Chunk, c.isRuns = true → c.isBlock = false := by
      rintro (a | b | l) hl
      · cases hl
      · cases hl
      · rfl
    rw [hc.eq hd hruns ((hblock c hcase).trans (hblock d hdcase).symm)]

/-! Which raw results are lists of runs. -/

theorem isRuns_unionOnto (c d : Chunk) :
    (c.unionOnto d).isRuns = ((c.isRuns || d.isRuns) && !(c.isBlock || d.isBlock)) := by
  cases c with
  | array a =>
    cases d with
    | array b =>
      rw [unionOnto]
      split <;> rfl
    | block b => rfl
    | runs l => rfl
  | block b => cases d <;> rfl
  | runs l => cases d <;> rfl

theorem isRuns_intersectionOnto (c d : Chunk) :
    (c.intersectionOnto d).isRuns = (c.isRuns && d.isRuns) := by
  cases c with
  | array a => cases d <;> rfl
  | block b => cases d <;> rfl
  | runs l =>
    cases d with
    | array a => rfl
    | block b =>
      rw [intersectionOnto]
      split <;> rfl
    | runs m => rfl

theorem isRuns_symmetricDifferenceOnto (c d : Chunk) : (c.symmetricDifferenceOnto d).isRuns =
    ((c.isRuns || d.isRuns) && !(c.isBlock || d.isBlock)) := by
  cases c <;> cases d <;> rfl

end Chunk

namespace Operation

theorem isRuns_ontoLeft_comm {op : Operation} (hop : op ≠ .difference) (c d : Chunk) :
    (op.ontoLeft c d).isRuns = (op.ontoLeft d c).isRuns := by
  cases op with
  | union =>
    rw [ontoLeft, Chunk.isRuns_unionOnto, Chunk.isRuns_unionOnto, Bool.or_comm c.isRuns,
      Bool.or_comm c.isBlock]
  | intersection =>
    rw [ontoLeft, Chunk.isRuns_intersectionOnto, Chunk.isRuns_intersectionOnto, Bool.and_comm]
  | difference => exact absurd rfl hop
  | symmetricDifference =>
    rw [ontoLeft, Chunk.isRuns_symmetricDifferenceOnto, Chunk.isRuns_symmetricDifferenceOnto,
      Bool.or_comm c.isRuns, Bool.or_comm c.isBlock]

theorem settle_of_either {op : Operation} (hc : c.Denotes S) (hd : d.Denotes T)
    (he : op.Either c d e) : e.settle = (op.ontoLeft c d).settle := by
  apply Chunk.settle_eq (denotes_of_either hc hd he) (ontoLeft_denotes op hc hd)
  rcases he with rfl | ⟨hop, rfl⟩
  · rfl
  · exact isRuns_ontoLeft_comm hop d c

/-- The right operand of an operation that does not care for their order may go first. -/
theorem Either.swap {op : Operation} (hop : op ≠ .difference) (h : op.Either c d e) :
    op.Either d c e := by
  rcases h with rfl | ⟨-, rfl⟩
  · exact Or.inr ⟨hop, rfl⟩
  · exact Or.inl rfl

theorem keepsRight_eq {op : Operation} (hop : op ≠ .difference) : op.keepsRight = op.keepsLeft := by
  cases op with
  | union => rfl
  | intersection => rfl
  | difference => exact absurd rfl hop
  | symmetricDifference => rfl

end Operation

namespace IntSet

variable {P : Chunk → Prop} {F G : Nat → Finset Nat} {s t : IntSet} {op : Operation}
  {f : Chunk → Chunk → Chunk}

theorem mergeBy_eq (hf : ∀ c d, op.Either c d (f c d)) (hs : s.Denotes P F) (ht : t.Denotes P G) :
    mergeBy op f s t = mergeBy op op.ontoLeft s t := by
  apply congrArg IntSet.mk
  refine Pairing.fold_rel (R := Eq) rfl fun p hp out out' hout => ?_
  subst hout
  cases p with
  | left x => rfl
  | right y => rfl
  | both x y =>
    obtain ⟨hx, hy, -⟩ := hp
    dsimp only
    rw [Operation.settle_of_either (hs.element x hx).2.2.1 (ht.element y hy).2.2.1 (hf _ _)]

theorem mergeBy_swap (hop : op ≠ .difference) (hf : ∀ c d, op.Either c d (f c d))
    (hs : s.Denotes P F) (ht : t.Denotes P G) :
    mergeBy op f t s = mergeBy op op.ontoLeft s t := by
  apply congrArg IntSet.mk
  rw [Pairing.fold_swap]
  refine Pairing.fold_rel (R := Eq) rfl fun p hp out out' hout => ?_
  subst hout
  cases p with
  | left x =>
    dsimp only [Pairing.swap]
    rw [Operation.keepsRight_eq hop]
  | right y =>
    dsimp only [Pairing.swap]
    rw [Operation.keepsRight_eq hop]
  | both x y =>
    obtain ⟨hx, hy, hkey⟩ := hp
    dsimp only [Pairing.swap]
    rw [Operation.settle_of_either (hs.element x hx).2.2.1 (ht.element y hy).2.2.1
      ((hf _ _).swap hop), hkey]

theorem combine_eq_applyOnto (op : Operation) (handover : Handover) (hs : s.Valid) (ht : t.Valid) :
    combine op handover s t = applyOnto op s t := by
  have honto : ∀ c d, op.Either c d (op.ontoLeft c d) := fun c d => Or.inl rfl
  have happly : apply op s t = applyOnto op s t :=
    mergeBy_eq op.onChunks_either hs.denotes ht.denotes
  have htaking : applyTaking op s t = applyOnto op s t := by
    rw [applyTaking]
    split
    · rename_i hunion
      have hop : op ≠ .difference := by simp [hunion.1]
      exact mergeBy_swap hop op.taking_either hs.denotes ht.denotes
    · exact mergeBy_eq op.taking_either hs.denotes ht.denotes
  cases handover with
  | neither => exact happly
  | right =>
    rw [combine]
    split
    · exact happly
    · rename_i hop
      exact mergeBy_swap hop honto hs.denotes ht.denotes
  | left => rfl
  | both => exact htaking
  | inPlace => rfl
  | inPlaceTaking => exact htaking

/-- All spellings of an operation give the same entries: the same keys, each with a chunk of the
same representation and content. They are written as the same bytes. -/
theorem combine_spelling (op : Operation) (handover handover' : Handover) (hs : s.Valid)
    (ht : t.Valid) :
    (combine op handover s t).entries = (combine op handover' s t).entries ∧
      (combine op handover s t).encode = (combine op handover' s t).encode := by
  rw [combine_eq_applyOnto op handover hs ht, combine_eq_applyOnto op handover' hs ht]
  exact ⟨rfl, rfl⟩

theorem combine_spelling_mixed :
    let b : Chunk := (Chunk.runs ⟨#[⟨0, 5000⟩]⟩).toBlock
    let s : IntSet := ⟨#[⟨0, .array ⟨#[1, 2, 65535]⟩⟩, ⟨7, .runs ⟨#[⟨0, 9⟩, ⟨12, 65535⟩]⟩⟩]⟩
    let t : IntSet := ⟨#[⟨0, b⟩, ⟨7, .array ⟨#[5, 11]⟩⟩, ⟨65535, .array ⟨#[0]⟩⟩]⟩
    s.Valid ∧ t.Valid ∧
      (combine .union .both s t).entries = (combine .union .neither s t).entries ∧
      (combine .union .both s t).encode = (combine .union .neither s t).encode := by
  intro b s t
  have hruns : (Chunk.runs ⟨#[⟨0, 5000⟩]⟩).Valid := by decide
  have hb : b.Valid ∧ b.isEmpty = false := ⟨hruns.toBlock.1, hruns.toBlock.2.1⟩
  have hs : s.Valid := by decide
  have ht : t.Valid := ⟨by decide, List.forall_mem_cons.2 ⟨⟨by decide, hb⟩, by decide⟩⟩
  exact ⟨hs, ht, combine_spelling .union .both .neither hs ht⟩

end IntSet

end ChunkedSet
