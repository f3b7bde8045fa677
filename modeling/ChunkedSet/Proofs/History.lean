import ChunkedSet.Proofs.Decode
import ChunkedSet.Proofs.Many
import ChunkedSet.Proofs.SetRanges
import ChunkedSet.Proofs.SetTrim

/-!
# Histories

The sets that any sequence of operations leads to. Every operation preserves every grade of
chunks, and both well-formedness and the policy itself are such grades: the policy as long as no
set was read from bytes, whose runs may be longer than needed.
-/

namespace ChunkedSet

namespace IntSet

/-- The sets reached from scratch, or also from bytes if `decoding` is set. -/
inductive Reached (decoding : Bool) : IntSet → Prop
  | empty : Reached decoding .empty
  | full : Reached decoding .full
  | ofList {values : List Nat} (hvalues : ∀ v ∈ values, v < domainSize) :
    Reached decoding (ofList values)
  | ofSortedList {values : List Nat} {s : IntSet} (hvalues : ∀ v ∈ values, v < domainSize)
    (hs : ofSortedList values = .ok s) : Reached decoding s
  | decode {mode : DecodeMode} {bytes : List UInt8} {s : IntSet} (hdecoding : decoding = true)
    (hmode : mode.isChecked = true) (hs : ChunkedSet.decode mode bytes = .ok s) :
    Reached decoding s
  | insert {s : IntSet} {v : Nat} (h : Reached decoding s) (hv : v < domainSize) :
    Reached decoding (s.insert v).1
  | erase {s : IntSet} {v : Nat} (h : Reached decoding s) (hv : v < domainSize) :
    Reached decoding (s.erase v).1
  | push {s : IntSet} {v : Nat} (h : Reached decoding s) (hv : v < domainSize) :
    Reached decoding (s.push v).1
  | insertAll {s : IntSet} {values : List Nat} (h : Reached decoding s)
    (hvalues : ∀ v ∈ values, v < domainSize) : Reached decoding (s.insertAll values)
  | appendAll {s : IntSet} {values : List Nat} (h : Reached decoding s)
    (hvalues : ∀ v ∈ values, v < domainSize) : Reached decoding (s.appendAll values).1
  | insertRange {s : IntSet} {range : Bounds} (h : Reached decoding s) (hrange : range.InDomain) :
    Reached decoding (s.insertRange range).1
  | eraseRange {s : IntSet} {range : Bounds} (h : Reached decoding s) (hrange : range.InDomain) :
    Reached decoding (s.eraseRange range).1
  | flip {s : IntSet} {range : Bounds} (h : Reached decoding s) (hrange : range.InDomain) :
    Reached decoding (s.flip range).1
  | flipped {s t : IntSet} {range : Bounds} (h : Reached decoding s) (hrange : range.InDomain)
    (ht : s.flipped range = .ok t) : Reached decoding t
  | clear {s : IntSet} (h : Reached decoding s) : Reached decoding .empty
  | dropSmallest {s : IntSet} (h : Reached decoding s) (n : Nat) :
    Reached decoding (s.dropSmallest n)
  | dropBiggest {s : IntSet} (h : Reached decoding s) (n : Nat) : Reached decoding (s.dropBiggest n)
  | limit {s : IntSet} (h : Reached decoding s) (n : Nat) : Reached decoding (s.limit n)
  | addOffset {s : IntSet} (h : Reached decoding s) (offset : Int) :
    Reached decoding (s.addOffset offset)
  | optimize {s : IntSet} (h : Reached decoding s) : Reached decoding s.optimize.1
  | withoutRuns {s : IntSet} (h : Reached decoding s) : Reached decoding s.withoutRuns.1
  | orNot {s t u : IntSet} {bound : Nat} (hs : Reached decoding s) (ht : Reached decoding t)
    (hu : s.orNot t bound = .ok u) : Reached decoding u
  | combine {s t : IntSet} (op : Operation) (handover : Handover) (hs : Reached decoding s)
    (ht : Reached decoding t) : Reached decoding (combine op handover s t)
  | many {ε : Type} {inputs : List (Except ε IntSet)} {s : IntSet} (op : Operation) (o : Ownership)
    (hinputs : ∀ t, .ok t ∈ inputs → Reached decoding t) (hs : Many.apply op o inputs = .ok s) :
    Reached decoding s
  | lazyUnion {sets : List IntSet} (hsets : ∀ t ∈ sets, Reached decoding t) :
    Reached decoding (LazyUnion.empty.addAll sets).repair
  | lazyUnionFrom {s : IntSet} {sets : List IntSet} (h : Reached decoding s)
    (hsets : ∀ t ∈ sets, Reached decoding t) :
    Reached decoding ((LazyUnion.ofSet s).addAll sets).repair
  | union {strategy : Strategy} {sets : List IntSet} (hstrategy : Aggregate.Lawful strategy)
    (hsets : ∀ t ∈ sets, Reached decoding t) : Reached decoding (Aggregate.union strategy sets)
  | symmetricDifference {strategy : Strategy} {sets : List IntSet}
    (hstrategy : Aggregate.Lawful strategy) (hsets : ∀ t ∈ sets, Reached decoding t) :
    Reached decoding (Aggregate.symmetricDifference strategy sets)

variable {decoding : Bool} {P : Chunk → Prop} {s : IntSet}

theorem ofSortedList_eq {values : List Nat} (h : ofSortedList values = .ok s) :
    s = (empty.appendAll values).1 := by
  rw [ofSortedList] at h
  split at h
  · rename_i t n happend
    cases h
    rw [happend]
  · cases h

/-- The policy is a grade that well-formed chunks satisfy wherever bytes are read. -/
theorem Reached.denotes (h : Reached decoding s) (hP : Chunk.Grade P)
    (hwf : ∀ c : Chunk, c.Valid → P c → c.WellFormed)
    (hread : decoding = true → ∀ c : Chunk, c.WellFormed → P c) : ∃ F, s.Denotes P F := by
  induction h with
  | empty => exact ⟨_, empty_denotes⟩
  | full => exact ⟨_, full_denotes hP⟩
  | ofList hvalues => exact ⟨_, insertAll_denotes hP empty_denotes hvalues⟩
  | ofSortedList hvalues hs =>
    obtain ⟨n, hn⟩ := appendAll_denotes hP (empty_denotes (P := P)) hvalues
    rw [ofSortedList_eq hs]
    exact ⟨_, hn⟩
  | decode hdecoding hmode hs =>
    have hgood := wellFormed_of_decode hmode hs
    refine ⟨_, denotes_slots hgood.1 fun e he => ?_⟩
    obtain ⟨hkey, hchunk, hempty⟩ := hgood.2 e he
    exact ⟨hkey, hchunk.valid, hread hdecoding e.chunk hchunk, hempty⟩
  | insert h hv ih =>
    obtain ⟨F, hF⟩ := ih
    exact ⟨_, (insert_denotes hP hF hv).1⟩
  | erase h hv ih =>
    obtain ⟨F, hF⟩ := ih
    exact ⟨_, (erase_denotes hP hF hv).1⟩
  | push h hv ih =>
    obtain ⟨F, hF⟩ := ih
    exact push_denotes hP hF hv
  | insertAll h hvalues ih =>
    obtain ⟨F, hF⟩ := ih
    exact ⟨_, insertAll_denotes hP hF hvalues⟩
  | appendAll h hvalues ih =>
    obtain ⟨F, hF⟩ := ih
    obtain ⟨n, hn⟩ := appendAll_denotes hP hF hvalues
    exact ⟨_, hn⟩
  | insertRange h hrange ih =>
    obtain ⟨F, hF⟩ := ih
    exact insertRange_denotes hP hF hrange
  | eraseRange h hrange ih =>
    obtain ⟨F, hF⟩ := ih
    exact eraseRange_denotes hP hF hrange
  | flip h hrange ih =>
    obtain ⟨F, hF⟩ := ih
    exact flip_denotes hP hF hrange
  | flipped h hrange ht ih =>
    obtain ⟨F, hF⟩ := ih
    exact flipped_denotes hP hF hrange ht
  | clear h ih => exact ⟨_, empty_denotes⟩
  | dropSmallest h n ih =>
    obtain ⟨F, hF⟩ := ih
    exact dropSmallest_denotes hP hF n
  | dropBiggest h n ih =>
    obtain ⟨F, hF⟩ := ih
    exact dropBiggest_denotes hP hF n
  | limit h n ih =>
    obtain ⟨F, hF⟩ := ih
    exact limit_denotes hP hF n
  | addOffset h offset ih =>
    obtain ⟨F, hF⟩ := ih
    exact addOffset_denotes hP hF offset
  | optimize h ih =>
    obtain ⟨F, hF⟩ := ih
    exact ⟨F, optimize_denotes hP hwf hF⟩
  | withoutRuns h ih =>
    obtain ⟨F, hF⟩ := ih
    exact ⟨F, withoutRuns_denotes hP hF⟩
  | orNot hs ht hu ihs iht =>
    obtain ⟨F, hF⟩ := ihs
    obtain ⟨G, hG⟩ := iht
    exact orNot_denotes hP hF hG hu
  | combine op handover hs ht ihs iht =>
    obtain ⟨F, hF⟩ := ihs
    obtain ⟨G, hG⟩ := iht
    exact ⟨_, combine_denotes hP op handover hF hG⟩
  | many op o hinputs hs ih => exact ⟨_, Many.apply_denotes hP op o ih hs⟩
  | lazyUnion hsets ih =>
    exact ⟨_, LazyUnion.repair_denotes hP (LazyUnion.empty_addAll_denotes ih)⟩
  | lazyUnionFrom h hsets ih ihs =>
    obtain ⟨F, hF⟩ := ih
    have hden := LazyUnion.addAll_denotes (LazyUnion.ofSet_denotes_among hF) ihs
    exact ⟨_, LazyUnion.repair_denotes hP hden⟩
  | union hstrategy hsets ih => exact ⟨_, Aggregate.union_denotes hP hstrategy ih⟩
  | symmetricDifference hstrategy hsets ih =>
    exact ⟨_, Aggregate.symmetricDifference_denotes hP hstrategy ih⟩

/-- Every set that is reached is well formed, and if none was read from bytes, runs only stand
where they are the shortest. -/
theorem reached_wellFormed (h : Reached decoding s) :
    s.WellFormed ∧ (decoding = false → ∀ e ∈ s.entries.toList, ∀ l, e.chunk = .runs l →
      2 + 4 * l.runCount < min (2 * l.size) 8192) := by
  constructor
  · obtain ⟨F, hF⟩ := h.denotes Chunk.grade_wellFormed (fun _ _ hwf => hwf) fun _ _ hwf => hwf
    exact hF.wellFormed fun _ _ hwf => hwf
  · intro hdecoding e he l hl
    obtain ⟨F, hF⟩ := h.denotes Chunk.grade_fits (fun _ => Chunk.wellFormed_of_fits) fun hread =>
      absurd hread (by rw [hdecoding]; exact Bool.false_ne_true)
    obtain ⟨-, -, hfits, -⟩ := hF.entries.2 e he
    rw [hl] at hfits
    exact of_decide_eq_true hfits

theorem reached_wellFormed_range :
    WellFormed (insert (insertRange empty ⟨.included 3, .included 9⟩).1 70000).1 ∧
      (false = false → ∀ e ∈ (insert (insertRange empty ⟨.included 3, .included 9⟩).1
        70000).1.entries.toList, ∀ l, e.chunk = .runs l →
          2 + 4 * l.runCount < min (2 * l.size) 8192) := by
  have hrange : Bounds.InDomain ⟨.included 3, .included 9⟩ := by
    refine ⟨fun v hv => ?_, fun v hv => ?_⟩ <;>
      cases hv <;> decide
  exact reached_wellFormed (.insert (.insertRange .empty hrange) (by decide))

end IntSet

end ChunkedSet
