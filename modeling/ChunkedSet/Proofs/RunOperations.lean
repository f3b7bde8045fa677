import Mathlib.Data.Nat.PSub
import ChunkedSet.Proofs.ChunkAlgebra
import ChunkedSet.Proofs.ChunkUpdate

/-!
# Results of operations on runs

The four set operations on lists of maximal runs, and the two changes of a range, yield lists of
maximal runs again, so that a result depends on the covered positions alone. A change of a range
reports by how many positions the list has grown or shrunk. The gaps that a list of runs leaves up
to a position are such a list too, also where its runs touch.
-/

namespace ChunkedSet.RunList

open Finset

variable {l m : RunList} {S T : Finset Nat} {P : Nat → Prop} {lo hi : Nat}

/-- The list of the maximal runs of the positions with a property, which is the only one. -/
structure RunsOf (l : RunList) (P : Nat → Prop) : Prop where
  valid : l.Valid
  mem : ∀ p, p ∈ l ↔ P p
  unique : ∀ m : RunList, m.Valid → (∀ p, p ∈ m ↔ P p) → m = l

theorem Denotes.runsOf (h : l.Denotes S) (hP : ∀ p, p ∈ S ↔ P p) : l.RunsOf P where
  valid := h.1
  mem p := (h.2 p).trans (hP p)
  unique _ hm hmem := Denotes.eq ⟨hm, fun p => (hmem p).trans (hP p).symm⟩ h

theorem mem_onSets_covered (op : Operation) (l m : RunList) (p : Nat) :
    p ∈ op.onSets (covered l.toList) (covered m.toList) ↔ op.Holds (p ∈ l) (p ∈ m) := by
  rw [op.mem_onSets, mem_covered, mem_covered, mem_def, mem_def]

/-- Union, intersection, difference and symmetric difference of two lists of maximal runs are the
lists of the maximal runs of what these operations leave of the covered positions. -/
theorem operations_correct (hl : l.Valid) (hm : m.Valid) :
    (l.union m).RunsOf (fun p => p ∈ l ∨ p ∈ m) ∧
      (l.intersection m).RunsOf (fun p => p ∈ l ∧ p ∈ m) ∧
      (l.difference m).RunsOf (fun p => p ∈ l ∧ p ∉ m) ∧
      (l.symmetricDifference m).RunsOf (fun p => p ∈ l ∧ p ∉ m ∨ p ∉ l ∧ p ∈ m) :=
  ⟨(union_denotes hl.denotes hm.denotes).runsOf (mem_onSets_covered .union l m),
    (intersection_denotes hl.denotes hm.denotes).runsOf (mem_onSets_covered .intersection l m),
    (difference_denotes hl.denotes hm.denotes).runsOf (mem_onSets_covered .difference l m),
    (symmetricDifference_denotes hl.denotes hm.denotes).runsOf
      (mem_onSets_covered .symmetricDifference l m)⟩

theorem operations_correct_touching :
    let l : RunList := ⟨#[⟨0, 3⟩, ⟨10, 20⟩, ⟨65530, 65535⟩]⟩
    let m : RunList := ⟨#[⟨4, 9⟩, ⟨12, 13⟩, ⟨15, 16⟩, ⟨65535, 65535⟩]⟩
    l.Valid ∧ m.Valid ∧ ⟨#[⟨0, 20⟩, ⟨65530, 65535⟩]⟩ = l.union m ∧
      ⟨#[⟨12, 13⟩, ⟨15, 16⟩, ⟨65535, 65535⟩]⟩ = l.intersection m ∧
      ⟨#[⟨0, 3⟩, ⟨10, 11⟩, ⟨14, 14⟩, ⟨17, 20⟩, ⟨65530, 65534⟩]⟩ = l.difference m ∧
      (l.symmetricDifference m).Valid ∧ 65535 ∉ l.symmetricDifference m := by
  intro l m
  have hl : l.Valid := by decide
  have hm : m.Valid := by decide
  obtain ⟨hunion, hinter, hdiff, hsymm⟩ := operations_correct hl hm
  refine ⟨hl, hm, hunion.unique _ (by decide) fun p => ?_, hinter.unique _ (by decide) fun p => ?_,
    hdiff.unique _ (by decide) fun p => ?_, hsymm.valid, ?_⟩
  iterate 3
    simp only [mem_def, Run.mem_def, toList, l, m, List.mem_cons, List.not_mem_nil, or_false,
      exists_eq_or_imp, exists_eq_left]
    omega
  · rw [hsymm.mem]
    decide

/-! Changes of a range. -/

theorem size_insertRange (hl : l.Denotes S) (hle : lo ≤ hi) (hhi : hi < chunkSize) :
    (l.insertRange lo hi).1.size = l.size + (l.insertRange lo hi).2 := by
  obtain ⟨hden, hadded⟩ := insertRange_denotes hl hle hhi
  rw [hden.size, hadded, hl.size, ← union_sdiff_self_eq_union,
    card_union_of_disjoint disjoint_sdiff]

theorem size_eraseRange (hl : l.Denotes S) (hle : lo ≤ hi) :
    (l.eraseRange lo hi).1.size + (l.eraseRange lo hi).2 = l.size := by
  obtain ⟨hden, hremoved⟩ := eraseRange_denotes hl hle
  rw [hden.size, hremoved, hl.size, card_sdiff_add_card_inter]

/-- A range that is inserted joins the runs that it overlaps or touches, and a range that is
erased is cut out of the runs that it overlaps. The number that each reports is that of the
positions it adds or removes. Both ends belong to the range and are in order, as every caller
passes them; a reversed range is outside of what the updates are given, and to erase 5 to 3 from the
run 0 to 10 would leave the runs 0 to 4 and 4 to 10, which overlap. -/
theorem rangeUpdates_keep_runs (hl : l.Valid) (hle : lo ≤ hi) (hhi : hi < chunkSize) :
    (l.insertRange lo hi).1.RunsOf (fun p => p ∈ l ∨ lo ≤ p ∧ p ≤ hi) ∧
      (l.insertRange lo hi).2 = #{p ∈ Icc lo hi | p ∉ l} ∧
      (l.insertRange lo hi).1.size = l.size + (l.insertRange lo hi).2 ∧
    (l.eraseRange lo hi).1.RunsOf (fun p => p ∈ l ∧ ¬(lo ≤ p ∧ p ≤ hi)) ∧
      (l.eraseRange lo hi).2 = #{p ∈ Icc lo hi | p ∈ l} ∧
      (l.eraseRange lo hi).1.size + (l.eraseRange lo hi).2 = l.size := by
  have hden := hl.denotes
  have hmem : ∀ p, p ∈ covered l.toList ↔ p ∈ l := fun p => (hden.2 p).symm
  obtain ⟨hinsert, hadded⟩ := insertRange_denotes hden hle hhi
  obtain ⟨herase, hremoved⟩ := eraseRange_denotes hden hle
  refine ⟨hinsert.runsOf fun p => ?_, ?_, size_insertRange hden hle hhi,
    herase.runsOf fun p => ?_, ?_, size_eraseRange hden hle⟩
  · rw [mem_union, mem_Icc, hmem]
  · rw [hadded]
    congr 1
    ext p
    rw [mem_sdiff, mem_filter, hmem]
  · rw [mem_sdiff, mem_Icc, hmem]
  · rw [hremoved]
    congr 1
    ext p
    rw [mem_inter, mem_filter, hmem, and_comm]

theorem rangeUpdates_keep_runs_touching :
    let l : RunList := ⟨#[⟨0, 3⟩, ⟨10, 20⟩, ⟨65530, 65535⟩]⟩
    l.Valid ∧ 4 ≤ 9 ∧ 9 < chunkSize ∧ 15 ≤ 65535 ∧ 65535 < chunkSize ∧
      ⟨#[⟨0, 20⟩, ⟨65530, 65535⟩]⟩ = (l.insertRange 4 9).1 ∧
      (l.insertRange 4 9).2 = #{p ∈ Icc 4 9 | p ∉ l} ∧ #{p ∈ Icc 4 9 | p ∉ l} = 6 ∧
      ⟨#[⟨0, 3⟩, ⟨10, 14⟩]⟩ = (l.eraseRange 15 65535).1 ∧
      (l.eraseRange 15 65535).1.size + (l.eraseRange 15 65535).2 = l.size := by
  intro l
  have hl : l.Valid := by decide
  have hhi : 9 < chunkSize := by decide
  have hend : 65535 < chunkSize := by decide
  obtain ⟨hinsert, hadded, -⟩ := @rangeUpdates_keep_runs l 4 9 hl (by decide) hhi
  obtain ⟨-, -, -, herase, -, hsize⟩ := @rangeUpdates_keep_runs l 15 65535 hl (by decide) hend
  refine ⟨hl, by decide, hhi, by decide, hend, hinsert.unique _ (by decide) fun p => ?_, hadded,
    by decide, herase.unique _ (by decide) fun p => ?_, hsize⟩
  iterate 2
    simp only [mem_def, Run.mem_def, toList, l, List.mem_cons, List.not_mem_nil, or_false,
      exists_eq_or_imp, exists_eq_left]
    omega

/-! Gaps. -/

def ofEnds? (first last : Nat) : Option Run :=
  if first ≤ last ∧ last < chunkSize then some ⟨first, last⟩ else none

def gapsFrom? (last : Nat) : List Run → Nat → Array Run → Option (Array Run)
  | [], next, out => if next ≤ last then out.push <$> ofEnds? next last else some out
  | r :: rest, next, out =>
    if last < r.first then if next ≤ last then out.push <$> ofEnds? next last else some out
    else do
      let out ← if next < r.first then do
          let stop ← r.first.psub 1
          out.push <$> ofEnds? next stop
        else some out
      gapsFrom? last rest (max next (r.last + 1)) out

theorem ofEnds?_eq {first last : Nat} (hle : first ≤ last) (hlast : last < chunkSize) :
    ofEnds? first last = some ⟨first, last⟩ := if_pos ⟨hle, hlast⟩

/-- No check fails, as a gap ends at `last` or before a run that starts there at the latest. -/
theorem gapsFrom?_eq {last : Nat} (hlast : last < chunkSize) (runs : List Run) (next : Nat)
    (out : Array Run) : gapsFrom? last runs next out = some (gapsFrom last runs next out) := by
  have htail : ∀ (next : Nat) (out : Array Run),
      (if next ≤ last then out.push <$> ofEnds? next last else some out) =
        some (if next ≤ last then out.push ⟨next, last⟩ else out) := by
    intro next out
    split
    · rename_i hle
      rw [ofEnds?_eq hle hlast]
      rfl
    · rfl
  induction runs generalizing next out with
  | nil => exact htail next out
  | cons r rest ih =>
    rw [gapsFrom?, gapsFrom]
    split
    · exact htail next out
    · split
      · rename_i hfirst hgap
        have hends : 1 ≤ r.first ∧ next ≤ r.first - 1 ∧ r.first - 1 < chunkSize := by omega
        rw [Nat.psub_eq_sub hends.1]
        simp only [Option.bind_eq_bind, Option.bind_some, ofEnds?_eq hends.2.1 hends.2.2]
        exact ih (max next (r.last + 1)) _
      · exact ih (max next (r.last + 1)) out

/-- The gaps between runs, from the first position up to `last`, are the maximal runs of the
positions that no run covers, and no end of a gap leaves the chunk on the way. The runs are in
order and do not overlap, but may touch. -/
theorem gapsWithin_complement {runs : List Run} {last : Nat}
    (hsorted : runs.Pairwise fun r s => r.last < s.first)
    (hruns : ∀ r ∈ runs, r.first ≤ r.last ∧ r.last < chunkSize) (hlast : last < chunkSize) :
    (gapsWithin runs last).RunsOf (fun p => p ≤ last ∧ ∀ r ∈ runs, p ∉ r) ∧
      gapsFrom? last runs 0 #[] = some (gapsWithin runs last).runs := by
  refine ⟨(gapsWithin_denotes hlast hsorted hruns).runsOf fun p => ?_,
    gapsFrom?_eq hlast runs 0 #[]⟩
  rw [mem_sdiff, mem_Icc, and_iff_right (Nat.zero_le p), mem_covered]
  simp only [not_exists, not_and]

theorem gapsWithin_complement_touching :
    let values := singletons ⟨#[0, 3, 4, 65534]⟩
    let runs : List Run := [⟨2, 5⟩, ⟨6, 6⟩, ⟨9, 20⟩, ⟨30, 65535⟩]
    (values.Pairwise fun r s => r.last < s.first) ∧
      (∀ r ∈ values, r.first ≤ r.last ∧ r.last < chunkSize) ∧ 65535 < chunkSize ∧
      (runs.Pairwise fun r s => r.last < s.first) ∧
      (∀ r ∈ runs, r.first ≤ r.last ∧ r.last < chunkSize) ∧ 12 < chunkSize ∧
      ⟨#[⟨1, 2⟩, ⟨5, 65533⟩, ⟨65535, 65535⟩]⟩ = gapsWithin values 65535 ∧
      ⟨#[⟨0, 1⟩, ⟨7, 8⟩]⟩ = gapsWithin runs 12 := by
  intro values runs
  have hsorted : values.Pairwise fun r s => r.last < s.first := by decide
  have hvalues : ∀ r ∈ values, r.first ≤ r.last ∧ r.last < chunkSize := by decide
  have hsorted' : runs.Pairwise fun r s => r.last < s.first := by decide
  have hruns : ∀ r ∈ runs, r.first ≤ r.last ∧ r.last < chunkSize := by decide
  have hend : 65535 < chunkSize := by decide
  have hcut : 12 < chunkSize := by decide
  obtain ⟨hall, -⟩ := gapsWithin_complement hsorted hvalues hend
  obtain ⟨hfew, -⟩ := gapsWithin_complement hsorted' hruns hcut
  refine ⟨hsorted, hvalues, hend, hsorted', hruns, hcut, hall.unique _ (by decide) fun p => ?_,
    hfew.unique _ (by decide) fun p => ?_⟩
  · simp only [mem_def, Run.mem_def, toList, values, singletons, SortedArray.toList, List.map_cons,
      List.map_nil, List.mem_cons, List.not_mem_nil, or_false, exists_eq_or_imp, exists_eq_left,
      forall_eq_or_imp, forall_eq]
    omega
  · simp only [mem_def, Run.mem_def, toList, runs, List.mem_cons, List.not_mem_nil, or_false,
      exists_eq_or_imp, exists_eq_left, forall_eq_or_imp, forall_eq]
    omega

end ChunkedSet.RunList
