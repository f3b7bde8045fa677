import ChunkedSet.Proofs.History
import ChunkedSet.Proofs.KnownSize
import ChunkedSet.Proofs.RunFree

/-!
# Histories without runs

The sets that grow from the empty one without a range that is inserted or complemented, a change of
representation or bytes to read. None of them has runs, so the values of such a set say all
about it: nothing of its history is left.
-/

namespace ChunkedSet

theorem LazyUnion.Fed.eq_addAll {sets : List IntSet} {u : LazyUnion} (h : Fed sets u) :
    u = LazyUnion.empty.addAll sets ∨
      ∃ first rest, sets = first :: rest ∧ u = (LazyUnion.ofSet first).addAll rest := by
  refine Fed.rec_add (motive := fun sets u => u = LazyUnion.empty.addAll sets ∨
    ∃ first rest, sets = first :: rest ∧ u = (LazyUnion.ofSet first).addAll rest) ?_ ?_ ?_ h
  · exact .inl rfl
  · intro s
    exact .inr ⟨s, [], rfl, rfl⟩
  · intro sets u _ ih s
    rcases ih with rfl | ⟨first, rest, rfl, rfl⟩
    · exact .inl (List.foldl_concat _ _ _ _).symm
    · exact .inr ⟨first, rest ++ [s], rfl, (List.foldl_concat _ _ _ _).symm⟩

namespace IntSet

/-- The sets that grow from the empty one by operations that make no runs. -/
inductive Grown : IntSet → Prop
  | empty : Grown .empty
  | insert {s : IntSet} {v : Nat} (h : Grown s) (hv : v < domainSize) : Grown (s.insert v).1
  | erase {s : IntSet} {v : Nat} (h : Grown s) (hv : v < domainSize) : Grown (s.erase v).1
  | push {s : IntSet} {v : Nat} (h : Grown s) (hv : v < domainSize) : Grown (s.push v).1
  | insertAll {s : IntSet} {values : List Nat} (h : Grown s)
    (hvalues : ∀ v ∈ values, v < domainSize) : Grown (s.insertAll values)
  | appendAll {s : IntSet} {values : List Nat} (h : Grown s)
    (hvalues : ∀ v ∈ values, v < domainSize) : Grown (s.appendAll values).1
  | eraseRange {s : IntSet} {range : Bounds} (h : Grown s) (hrange : range.InDomain) :
    Grown (s.eraseRange range).1
  | dropSmallest {s : IntSet} (h : Grown s) (n : Nat) : Grown (s.dropSmallest n)
  | dropBiggest {s : IntSet} (h : Grown s) (n : Nat) : Grown (s.dropBiggest n)
  | limit {s : IntSet} (h : Grown s) (n : Nat) : Grown (s.limit n)
  | clear {s : IntSet} (h : Grown s) : Grown .empty
  | addOffset {s : IntSet} (h : Grown s) (offset : Int) : Grown (s.addOffset offset)
  | combine {s t : IntSet} (op : Operation) (handover : Handover) (hs : Grown s) (ht : Grown t) :
    Grown (combine op handover s t)
  | many {ε : Type} {inputs : List (Except ε IntSet)} {s : IntSet} (op : Operation) (o : Ownership)
    (hinputs : ∀ t, .ok t ∈ inputs → Grown t) (hs : Many.apply op o inputs = .ok s) : Grown s
  | lazyUnion {sets : List IntSet} {u : LazyUnion} (hsets : ∀ t ∈ sets, Grown t)
    (hu : LazyUnion.Fed sets u) : Grown u.repair
  | union {strategy : Strategy} {sets : List IntSet} (hstrategy : Aggregate.Lawful strategy)
    (hsets : ∀ t ∈ sets, Grown t) : Grown (Aggregate.union strategy sets)
  | symmetricDifference {strategy : Strategy} {sets : List IntSet}
    (hstrategy : Aggregate.Lawful strategy) (hsets : ∀ t ∈ sets, Grown t) :
    Grown (Aggregate.symmetricDifference strategy sets)

variable {s t : IntSet}

theorem Grown.reached (h : Grown s) : Reached false s := by
  induction h with
  | empty => exact .empty
  | insert h hv ih => exact ih.insert hv
  | erase h hv ih => exact ih.erase hv
  | push h hv ih => exact ih.push hv
  | insertAll h hvalues ih => exact ih.insertAll hvalues
  | appendAll h hvalues ih => exact ih.appendAll hvalues
  | eraseRange h hrange ih => exact ih.eraseRange hrange
  | dropSmallest h n ih => exact ih.dropSmallest n
  | dropBiggest h n ih => exact ih.dropBiggest n
  | limit h n ih => exact ih.limit n
  | clear h ih => exact ih.clear
  | addOffset h offset ih => exact ih.addOffset offset
  | combine op handover hs ht ihs iht => exact .combine op handover ihs iht
  | many op o hinputs hs ih => exact .many op o ih hs
  | lazyUnion hsets hu ih =>
    rcases hu.eq_addAll with rfl | ⟨first, rest, rfl, rfl⟩
    · exact .lazyUnion ih
    · obtain ⟨hfirst, hrest⟩ := List.forall_mem_cons.1 ih
      exact .lazyUnionFrom hfirst hrest
  | union hstrategy hsets ih => exact .union hstrategy ih
  | symmetricDifference hstrategy hsets ih => exact .symmetricDifference hstrategy ih

theorem Grown.runFree (h : Grown s) : RunFree s.entries := by
  induction h with
  | empty => exact .empty
  | @insert s v h hv ih => exact runFree_insert ih v
  | @erase s v h hv ih => exact runFree_erase ih v
  | @push s v h hv ih => exact runFree_push ih v
  | insertAll h hvalues ih => exact runFree_insertAllFrom ih none
  | appendAll h hvalues ih => exact runFree_appendFrom ih _ 0
  | @eraseRange s range h hrange ih => exact runFree_eraseRange ih range
  | dropSmallest h n ih => exact runFree_dropSmallest ih n
  | dropBiggest h n ih => exact runFree_dropBiggest ih n
  | limit h n ih => exact runFree_limit ih n
  | clear h ih => exact .empty
  | addOffset h offset ih => exact runFree_addOffset ih offset
  | combine op handover hs ht ihs iht => exact runFree_combine op handover ihs iht
  | many op o hinputs hs ih => exact Many.runFree_apply op o ih hs
  | lazyUnion hsets hu ih => exact LazyUnion.runFree_repair (hu.runFree ih)
  | union hstrategy hsets ih => exact Aggregate.runFree_union hstrategy ih
  | symmetricDifference hstrategy hsets ih =>
    exact Aggregate.runFree_symmetricDifference hstrategy ih

theorem runs_notMem_kinds (h : RunFree s.entries) : .runs ∉ s.kinds := by
  intro hmem
  obtain ⟨e, he, hkind⟩ := List.mem_map.1 hmem
  exact Bool.eq_false_iff.1 (h.mem_toList e he) (Chunk.isRuns_iff.2 hkind)

theorem Grown.wellFormed (h : Grown s) : s.WellFormed := by
  obtain ⟨F, hF⟩ := h.reached.denotes Chunk.grade_wellFormed (fun _ _ hwf => hwf) fun _ _ hwf => hwf
  exact hF.wellFormed fun _ _ hwf => hwf

theorem Grown.plain (h : Grown s) : s.Denotes (Chunk.Follows .plain) s.slots :=
  h.wellFormed.plain (runs_notMem_kinds h.runFree)

/-- Two histories that end with the same values end with the same set and the same bytes. -/
theorem grown_unique (hs : Grown s) (ht : Grown t) :
    (.runs ∉ s.kinds ∧ .runs ∉ t.kinds) ∧
      ((∀ v, v ∈ s ↔ v ∈ t) → s.entries = t.entries ∧ s.encode = t.encode) := by
  refine ⟨⟨runs_notMem_kinds hs.runFree, runs_notMem_kinds ht.runFree⟩, fun hmem => ?_⟩
  have htden := ht.plain
  rw [← slots_congr hmem] at htden
  obtain rfl := hs.plain.unique htden
  exact ⟨rfl, rfl⟩

/-- A symmetric difference, and the difference of the union and the intersection. -/
theorem grown_unique_symmetricDifference :
    let s := ((IntSet.empty.insert 5).1.insert 70000).1
    let t := (IntSet.empty.appendAll [5, 9, 131072]).1
    let u := combine .symmetricDifference .inPlace s t
    let v := combine .difference .both (combine .union .left s t)
      (combine .intersection .neither s t)
    .runs ∉ u.kinds ∧ u.entries = v.entries ∧ u.encode = v.encode := by
  intro s t u v
  have hs : Grown s := (Grown.empty.insert (by decide)).insert (by decide)
  have ht : Grown t := Grown.empty.appendAll (by decide)
  have hunion : Grown (combine .union .left s t) := .combine _ _ hs ht
  have hinter : Grown (combine .intersection .neither s t) := .combine _ _ hs ht
  have hmem : ∀ w, w ∈ u ↔ w ∈ v := by
    intro w
    rw [mem_combine _ _ hs.wellFormed.valid ht.wellFormed.valid,
      mem_combine _ _ hunion.wellFormed.valid hinter.wellFormed.valid,
      mem_combine _ _ hs.wellFormed.valid ht.wellFormed.valid,
      mem_combine _ _ hs.wellFormed.valid ht.wellFormed.valid]
    simp only [Operation.Holds]
    tauto
  have huv := grown_unique (.combine .symmetricDifference .inPlace hs ht)
    (.combine .difference .both hunion hinter)
  exact ⟨huv.1.1, huv.2 hmem⟩

end IntSet

end ChunkedSet
