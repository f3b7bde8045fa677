import ChunkedSet.Proofs.Many

/-!
# The values of operations on many sets

All ways to carry out an operation on a list of sets lead to valid results with the same values:
folds of the operation on two sets, lazy unions, many sets at once, and halves.
-/

namespace ChunkedSet

variable {op : Operation} {sets more : List IntSet} {s t : IntSet} {P : Chunk → Prop}

namespace Operation

def Yields (op : Operation) (sets : List IntSet) (t : IntSet) : Prop :=
  t.Valid ∧ ∀ v, v ∈ t ↔ op.HoldsAmong v sets

theorem yields_of_denotes (hsets : ∀ s ∈ sets, s.Valid)
    (h : t.Denotes Chunk.Valid (op.slotsAmong sets)) : op.Yields sets t :=
  ⟨h.valid, fun _ => h.mem_iff_holdsAmong hsets⟩

end Operation

/-- The sets that went into `s` already come first. -/
theorem IntSet.foldl_combine_denotes_of_keeps (hP : op.Keeps P) (handover : Handover)
    (hop : op.keepsRight = true ∨ sets ≠ []) (hs : s.Denotes P (op.slotsAmong sets))
    (hmore : ∀ t ∈ more, ∃ F, t.Denotes P F) :
    (more.foldl (combine op handover) s).Denotes P (op.slotsAmong (sets ++ more)) := by
  induction more generalizing s sets with
  | nil =>
    rw [List.append_nil]
    exact hs
  | cons t rest ih =>
    obtain ⟨F, hF⟩ := hmore t List.mem_cons_self
    have hstep := combine_denotes_of_keeps hP handover hs hF.slots
    rw [← Operation.slotsAmong_concat hop] at hstep
    rw [List.append_cons]
    exact ih (.inr (List.append_ne_nil_of_right_ne_nil sets nofun)) hstep
      fun u hu => hmore u (List.mem_cons_of_mem t hu)

theorem IntSet.foldl_combine_denotes (hP : Chunk.Grade P) (handover : Handover)
    (hop : op.keepsRight = true ∨ sets ≠ []) (hs : s.Denotes P (op.slotsAmong sets))
    (hmore : ∀ t ∈ more, ∃ F, t.Denotes P F) :
    (more.foldl (combine op handover) s).Denotes P (op.slotsAmong (sets ++ more)) :=
  foldl_combine_denotes_of_keeps (op.keeps_of_grade hP) handover hop hs hmore

/-- The result depends neither on the way it is computed nor on the representations of the sets.
A fold needs a first set, except for a union, which may begin with nothing. -/
theorem yields_every_way (hsets : ∀ s ∈ sets, s.Valid) :
    (∀ (op : Operation) (o : Ownership), op.Yields sets (Many.applyAll op o sets)) ∧
      (∀ strategy, Aggregate.Lawful strategy →
        Operation.union.Yields sets (Aggregate.union strategy sets) ∧
        Operation.symmetricDifference.Yields sets (Aggregate.symmetricDifference strategy sets)) ∧
      (∀ u, LazyUnion.Fed sets u → Operation.union.Yields sets u.repair) ∧
      ∀ handover, Operation.union.Yields sets (sets.foldl (IntSet.combine .union handover) .empty) ∧
        ∀ (op : Operation) (first : IntSet) (rest : List IntSet), sets = first :: rest →
          op.Yields sets (rest.foldl (IntSet.combine op handover) first) := by
  have hP := Chunk.grade_valid
  have hdenote : ∀ s ∈ sets, ∃ F, s.Denotes Chunk.Valid F := fun s hs => ⟨_, (hsets s hs).denotes⟩
  refine ⟨fun op o => ?_, fun strategy hstrategy => ⟨?_, ?_⟩, fun u hu => ?_,
    fun handover => ⟨?_, fun op first rest heq => ?_⟩⟩
  · exact Operation.yields_of_denotes hsets (Many.applyAll_denotes hP op o hdenote)
  · exact Operation.yields_of_denotes hsets (Aggregate.union_denotes hP hstrategy hdenote)
  · exact Operation.yields_of_denotes hsets
      (Aggregate.symmetricDifference_denotes hP hstrategy hdenote)
  · exact Operation.yields_of_denotes hsets (LazyUnion.repair_denotes hP (hu.denotes hdenote))
  · have hnone : IntSet.empty.Denotes Chunk.Valid (Operation.union.slotsAmong []) := by
      rw [Operation.slotsAmong_nil]
      exact IntSet.empty_denotes
    have hfold := IntSet.foldl_combine_denotes hP handover (.inl rfl) hnone hdenote
    rw [List.nil_append] at hfold
    exact Operation.yields_of_denotes hsets hfold
  · subst heq
    have hfirst := (hsets first List.mem_cons_self).denotes
    rw [← Operation.slotsAmong_singleton op] at hfirst
    have hfold := IntSet.foldl_combine_denotes hP handover (.inr (List.cons_ne_nil first []))
      hfirst fun t ht => hdenote t (List.mem_cons_of_mem first ht)
    rw [List.singleton_append] at hfold
    exact Operation.yields_of_denotes hsets hfold

theorem yields_every_way_mixed :
    let s : IntSet := ⟨#[⟨0, .array ⟨#[1, 2, 5]⟩⟩, ⟨7, .runs ⟨#[⟨0, 9⟩, ⟨12, 65535⟩]⟩⟩]⟩
    let t : IntSet := ⟨#[⟨0, .runs ⟨#[⟨2, 9⟩]⟩⟩, ⟨65535, .array ⟨#[0]⟩⟩]⟩
    let u : IntSet := ⟨#[⟨0, .array ⟨#[5, 65535]⟩⟩]⟩
    (∀ r ∈ [s, t, u], r.Valid) ∧
      5 ∈ Aggregate.symmetricDifference .rightFirst [s, t, u] ∧
      2 ∉ Many.applyAll .symmetricDifference .given [s, t, u] ∧
      5 ∈ Many.applyAll .intersection .kept [s, t, u] ∧
      1 ∈ Many.applyAll .difference .kept [s, t, u] ∧
      65535 ∈ (((LazyUnion.ofSet s).add t).addAll [u]).repair ∧
      5 ∉ [t, u].foldl (IntSet.combine .difference .inPlace) s := by
  intro s t u
  have hsets : ∀ r ∈ [s, t, u], r.Valid := by decide
  obtain ⟨hmany, haggregate, hlazy, hfold⟩ := yields_every_way hsets
  have hfed : LazyUnion.Fed [s, t, u] (((LazyUnion.ofSet s).add t).addAll [u]) :=
    ((LazyUnion.Fed.ofSet s).add t).addAll [u]
  refine ⟨hsets, ?_, ?_, ?_, ?_, ?_, ?_⟩
  · exact ((haggregate .rightFirst fun _ _ => rfl).2.2 5).2 (by decide)
  · exact fun hmem => absurd (((hmany .symmetricDifference .given).2 2).1 hmem) (by decide)
  · exact ((hmany .intersection .kept).2 5).2 (by decide)
  · exact ((hmany .difference .kept).2 1).2 (by decide)
  · exact ((hlazy _ hfed).2 65535).2 (by decide)
  · have hdifference := (hfold .inPlace).2 .difference s [t, u] rfl
    exact fun hmem => absurd ((hdifference.2 5).1 hmem) (by decide)

end ChunkedSet
