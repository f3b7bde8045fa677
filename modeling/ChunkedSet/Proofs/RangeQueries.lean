import ChunkedSet.Proofs.Neighbours

/-!
# Questions about a range

A range is contained if every key of its span has an entry and every one of these contains its
piece; the number of common values is summed up over the entries met; and the range meets the set
if the first value from its start on is not behind its end.
-/

namespace ChunkedSet

open Finset

variable {P : Chunk → Prop} {F : Nat → Finset Nat} {s : IntSet} {bounds : Bounds} {span : Span}
  {a b v : Nat}

theorem Segment.length_eq_iff {α : Type} {key : α → Nat} {Stands : α → Finset Nat → Prop}
    {xs : List α} (h : Segment key Stands F a b xs) :
    xs.length = b - a ↔ ∀ k, a ≤ k → k < b → ∃ x ∈ xs, key x = k := by
  have hnodup : (xs.map key).Nodup := (List.pairwise_map.2 h.sorted).nodup
  have hcard : #(xs.map key).toFinset = xs.length := by
    rw [List.toFinset_card_of_nodup hnodup, List.length_map]
  have hsub : (xs.map key).toFinset ⊆ Ico a b := by
    intro k hk
    obtain ⟨x, hx, rfl⟩ := List.mem_map.1 (List.mem_toFinset.1 hk)
    exact mem_Ico.2 ⟨(h.element x hx).1, (h.element x hx).2.1⟩
  have hmem : ∀ k, k ∈ (xs.map key).toFinset ↔ ∃ x ∈ xs, key x = k := fun k => by
    rw [List.mem_toFinset, List.mem_map]
  constructor
  · intro hlength k hak hkb
    have heq := eq_of_subset_of_card_le hsub (by rw [Nat.card_Ico, hcard, hlength])
    rw [← hmem, heq]
    exact mem_Ico.2 ⟨hak, hkb⟩
  · intro hall
    have heq : (xs.map key).toFinset = Ico a b := by
      refine Subset.antisymm hsub fun k hk => ?_
      obtain ⟨hak, hkb⟩ := mem_Ico.1 hk
      exact (hmem k).2 (hall k hak hkb)
    rw [← hcard, heq, Nat.card_Ico]

namespace IntSet

theorem overlapping_segment (h : s.Denotes P F) (hlast : span.last < domainSize) :
    Segment Entry.key (Entry.Denotes P) F span.firstKey (span.lastKey + 1)
      (s.overlapping span).toList :=
  Segment.extract_window h (Nat.zero_le _) (Span.lastKey_lt hlast)

/-- A key without an entry cannot be covered, for no piece of a span is empty. -/
theorem covers_iff (h : s.Denotes P F) (hle : span.first ≤ span.last)
    (hlast : span.last < domainSize) :
    ((s.overlapping span).size == span.lastKey - span.firstKey + 1 &&
      (s.overlapping span).all fun e =>
        e.chunk.containsRange (span.firstIn e.key) (span.lastIn e.key)) = true ↔
    ∀ k, span.firstKey ≤ k → k ≤ span.lastKey → span.positions k ⊆ F k := by
  have hwindow := overlapping_segment h hlast
  have hkeys := Span.firstKey_le_lastKey hle
  have hcount : span.lastKey - span.firstKey + 1 = span.lastKey + 1 - span.firstKey := by omega
  have hchunk : ∀ e ∈ (s.overlapping span).toList,
      e.chunk.containsRange (span.firstIn e.key) (span.lastIn e.key) = true ↔
        span.positions e.key ⊆ F e.key := by
    intro e he
    have he := hwindow.element e he
    rw [Span.positions_inside he.1 (Nat.le_of_lt_succ he.2.1),
      Chunk.containsRange_iff he.2.2.1 (Span.firstIn_le_lastIn hle e.key)]
  rw [Bool.and_eq_true, beq_iff_eq, hcount, ← Array.all_toList, List.all_eq_true,
    ← Array.length_toList, hwindow.length_eq_iff]
  constructor
  · rintro ⟨hall, hcontains⟩ k hk hk'
    obtain ⟨e, he, rfl⟩ := hall k hk (Nat.lt_succ_of_le hk')
    exact (hchunk e he).1 (hcontains e he)
  · intro hall
    constructor
    · intro k hk hk'
      by_contra hnone
      have hempty := hwindow.absent k hk hk' fun e he hkey => hnone ⟨e, he, hkey⟩
      have hsub := hall k hk (Nat.le_of_lt_succ hk')
      rw [hempty, subset_empty, Span.positions_inside hk (Nat.le_of_lt_succ hk'),
        Icc_eq_empty_iff] at hsub
      exact hsub (Span.firstIn_le_lastIn hle k)
    · intro e he
      have hkey := hwindow.element e he
      exact (hchunk e he).2 (hall _ hkey.1 (Nat.le_of_lt_succ hkey.2.1))

theorem overlapSize_eq_sum (h : s.Denotes P F) (hle : span.first ≤ span.last)
    (hlast : span.last < domainSize) :
    (s.overlapping span).foldl
      (fun n e => n + e.chunk.rangeSize (span.firstIn e.key) (span.lastIn e.key)) 0 =
    ∑ k ∈ range chunkSize, #(F k ∩ span.positions k) := by
  have hwindow := overlapping_segment h hlast
  have hcount : ∀ e ∈ (s.overlapping span).toList,
      e.chunk.rangeSize (span.firstIn e.key) (span.lastIn e.key) =
        #(F e.key ∩ span.positions e.key) := by
    intro e he
    have he := hwindow.element e he
    rw [Chunk.rangeSize_eq_card he.2.2.1 (Span.firstIn_le_lastIn hle e.key),
      Span.positions_inside he.1 (Nat.le_of_lt_succ he.2.1)]
  rw [← Span.sum_keys hlast (by simp +contextual),
    ← hwindow.sum_eq (g := fun k => #(F k ∩ span.positions k)) (by simp +contextual),
    ← Array.foldl_toList, Words.foldl_add_eq_sum, Nat.zero_add]
  exact congrArg List.sum (List.map_congr_left hcount)

theorem positions_subset_iff (h : s.Denotes P F) (hlast : span.last < domainSize)
    (hspan : ∀ v, v ∈ bounds ↔ span.first ≤ v ∧ v ≤ span.last) :
    (∀ k, span.firstKey ≤ k → k ≤ span.lastKey → span.positions k ⊆ F k) ↔
      ∀ v ∈ bounds, v ∈ s := by
  constructor
  · intro hall v hv
    obtain ⟨hfirst, hlast'⟩ := (hspan v).1 hv
    have hpos : positionOf v ∈ span.positions (keyOf v) := by
      rw [Span.mem_positions, valueAt_keyOf]
      exact ⟨positionOf_lt v, hfirst, hlast'⟩
    rw [h.mem hv.1]
    exact hall (keyOf v) (Nat.div_le_div_right hfirst) (Nat.div_le_div_right hlast') hpos
  · intro hall k _ hk q hq
    obtain ⟨hlt, hmem⟩ := Span.mem_positions.1 hq
    rw [← h.mem_valueAt (hk.trans_lt (Span.lastKey_lt hlast)) hlt]
    exact hall _ ((hspan _).2 hmem)

/-! Bounds that name no values. -/

theorem notMem_reversed {start stop : Nat} (hstart : bounds.lower.value? = some start)
    (hstop : bounds.upper.value? = some stop) (hlt : stop < start) : v ∉ bounds := by
  obtain ⟨lower, upper⟩ := bounds
  rintro ⟨-, hbelow, habove⟩
  cases lower <;> cases upper <;>
    simp only [Bound.value?, Option.some_inj, reduceCtorEq] at hstart hstop <;>
    simp only [Bound.Below, Bound.Above] at hbelow habove <;> omega

theorem notMem_excluded {start stop : Nat} (hstart : bounds.lower = .excluded start)
    (hstop : bounds.upper = .excluded stop) (hle : stop ≤ start + 1) : v ∉ bounds := by
  rintro ⟨-, hbelow, habove⟩
  rw [hstart] at hbelow
  rw [hstop] at habove
  simp only [Bound.Below, Bound.Above] at hbelow habove
  omega

variable (hs : s.Valid) (hbounds : bounds.InDomain)

include hs hbounds

theorem containsRange_iff : s.containsRange bounds = true ↔ ∀ v ∈ bounds, v ∈ s := by
  rw [containsRange, Bounds.span?_eq_values?]
  cases hvalues : bounds.values? with
  | none =>
    have hnone : ∀ v, v ∉ bounds := fun v => Bounds.not_mem_of_values? hbounds hvalues
    exact iff_of_true rfl fun v hv => absurd hv (hnone v)
  | some span =>
    obtain ⟨hfirst, hlast⟩ := Bounds.values?_spec hbounds hvalues
    exact (covers_iff hs.denotes hfirst hlast).trans (positions_subset_iff hs.denotes hlast
      fun v => Bounds.mem_iff_of_values? hbounds hvalues)

theorem rangeSize_eq_card :
    s.rangeSize bounds = #{v ∈ range domainSize | v ∈ bounds ∧ v ∈ s} := by
  rw [rangeSize, Bounds.span?_eq_values?]
  cases hvalues : bounds.values? with
  | none =>
    have hnone : ∀ v, v ∉ bounds := fun v => Bounds.not_mem_of_values? hbounds hvalues
    simp only [hnone, false_and, filter_false, card_empty]
  | some span =>
    obtain ⟨hfirst, hlast⟩ := Bounds.values?_spec hbounds hvalues
    rw [card_present hs.denotes fun v => Bounds.mem_iff_of_values? hbounds hvalues]
    exact overlapSize_eq_sum hs.denotes hfirst hlast

theorem intersectsRange_iff : s.intersectsRange bounds = true ↔ ∃ v ∈ bounds, v ∈ s := by
  rw [intersectsRange, Bounds.span?_eq_values?]
  cases hvalues : bounds.values? with
  | none =>
    have hnone : ∀ v, v ∉ bounds := fun v => Bounds.not_mem_of_values? hbounds hvalues
    exact iff_of_false Bool.false_ne_true fun ⟨v, hv, _⟩ => hnone v hv
  | some span =>
    have hspan : ∀ v, v ∈ bounds ↔ span.first ≤ v ∧ v ≤ span.last :=
      fun v => Bounds.mem_iff_of_values? hbounds hvalues
    have hleast := hs.next?_least span.first
    dsimp only
    cases hnext : s.next? span.first with
    | none =>
      rw [hnext] at hleast
      refine iff_of_false Bool.false_ne_true ?_
      rintro ⟨v, hv, hmem⟩
      exact hleast v ⟨((hspan v).1 hv).1, hmem⟩
    | some first =>
      rw [hnext] at hleast
      rw [Option.any_some, decide_eq_true_eq]
      constructor
      · intro hin
        exact ⟨first, (hspan first).2 ⟨hleast.1.1, hin⟩, hleast.1.2⟩
      · rintro ⟨v, hv, hmem⟩
        exact (hleast.2 v ⟨((hspan v).1 hv).1, hmem⟩).trans ((hspan v).1 hv).2

/-- The three questions about a range are answered by its values, whatever its bounds. A range
whose bounds are reversed or leave nothing between them has none. -/
theorem rangeQueries_correct :
    (s.containsRange bounds = true ↔ ∀ v ∈ bounds, v ∈ s) ∧
      s.rangeSize bounds = #{v ∈ range domainSize | v ∈ bounds ∧ v ∈ s} ∧
      (s.intersectsRange bounds = true ↔ ∃ v ∈ bounds, v ∈ s) ∧
      (∀ start ∈ bounds.lower.value?, ∀ stop ∈ bounds.upper.value?, stop < start →
        ∀ v, v ∉ bounds) ∧
      (∀ start stop, bounds = ⟨.excluded start, .excluded stop⟩ → stop ≤ start + 1 →
        ∀ v, v ∉ bounds) := by
  refine ⟨containsRange_iff hs hbounds, rangeSize_eq_card hs hbounds,
    intersectsRange_iff hs hbounds, fun start hstart stop hstop hlt v => ?_, ?_⟩
  · exact notMem_reversed hstart hstop hlt
  · rintro start stop rfl hle v
    exact notMem_excluded rfl rfl hle

omit hs hbounds

theorem rangeQueries_correct_full :
    let s : IntSet := ⟨#[⟨0, .runs ⟨#[⟨0, 65535⟩]⟩⟩, ⟨1, .array ⟨#[0, 1, 7]⟩⟩,
      ⟨65535, .runs ⟨#[⟨0, 65535⟩]⟩⟩]⟩
    let bounds : Bounds := ⟨.unbounded, .excluded 65538⟩
    s.Valid ∧ bounds.InDomain ∧ s.containsRange bounds = true ∧ (∀ v ∈ bounds, v ∈ s) ∧
      s.rangeSize bounds = 65538 ∧
      #{v ∈ range domainSize | v ∈ bounds ∧ v ∈ s} = 65538 ∧ ∃ v ∈ bounds, v ∈ s := by
  intro s bounds
  have hs : s.Valid := by decide
  have hbounds : bounds.InDomain := by
    simp [bounds, Bounds.InDomain, Bound.InDomain, Bound.value?, domainSize]
  have hcontains : s.containsRange bounds = true := by cbv
  have hsize : s.rangeSize bounds = 65538 := by cbv
  have hintersects : s.intersectsRange bounds = true := by cbv
  have h := rangeQueries_correct hs hbounds
  exact ⟨hs, hbounds, hcontains, h.1.1 hcontains, hsize, h.2.1.symm.trans hsize,
    h.2.2.1.1 hintersects⟩

end IntSet

end ChunkedSet
