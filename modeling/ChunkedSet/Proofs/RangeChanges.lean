import Mathlib.Algebra.Order.BigOperators.Group.LocallyFinite
import ChunkedSet.Proofs.SetRanges

/-!
# What a change of a range does

The values that a change adds or removes are counted chunk by chunk, and summed up over the keys
of the span.
-/

namespace ChunkedSet

open Finset

variable {P : Chunk → Prop} {F G : Nat → Finset Nat} {s t : IntSet} {bounds : Bounds} {span : Span}
  {a b n key v : Nat}

theorem Segment.sum_eq {α : Type} {key : α → Nat} {Stands : α → Finset Nat → Prop} {xs : List α}
    (h : Segment key Stands F a b xs) {g : Nat → Nat} (hg : ∀ k, F k = ∅ → g k = 0) :
    (xs.map fun x => g (key x)).sum = ∑ k ∈ Ico a b, g k := by
  have hnodup : (xs.map key).Nodup := (List.pairwise_map.2 h.sorted).nodup
  have hsum := List.sum_toFinset g hnodup
  rw [List.map_map] at hsum
  rw [← Function.comp_def, ← hsum]
  apply sum_subset
  · intro k hk
    obtain ⟨x, hx, rfl⟩ := List.mem_map.1 (List.mem_toFinset.1 hk)
    exact mem_Ico.2 ⟨(h.element x hx).1, (h.element x hx).2.1⟩
  · intro k hk hnot
    obtain ⟨hak, hkb⟩ := mem_Ico.1 hk
    apply hg k
    apply h.absent k hak hkb
    rintro x hx rfl
    exact hnot (List.mem_toFinset.2 (List.mem_map_of_mem hx))

theorem valueAt_lt {k q : Nat} (hk : k < chunkSize) (hq : q < chunkSize) :
    valueAt k q < domainSize := by
  simp only [valueAt, domainSize, chunkSize] at *
  omega

theorem card_eq_sum {p : Nat → Prop} [DecidablePred p]
    (hp : ∀ k < chunkSize, ∀ q, q ∈ G k ↔ q < chunkSize ∧ p (valueAt k q)) :
    #{v ∈ range domainSize | p v} = ∑ k ∈ range chunkSize, #(G k) := by
  have hkeys : ∀ v ∈ ({v ∈ range domainSize | p v} : Finset Nat), keyOf v ∈ range chunkSize := by
    intro v hv
    simp only [mem_filter, mem_range] at hv
    exact mem_range.2 (keyOf_lt hv.1)
  rw [card_eq_sum_card_fiberwise hkeys]
  apply sum_congr rfl
  intro k hk
  have hlt := mem_range.1 hk
  apply card_nbij' positionOf (valueAt k)
  · intro v hv
    simp only [coe_filter, mem_filter, mem_range, Set.mem_ofPred_eq, mem_coe] at hv ⊢
    obtain ⟨⟨-, hv⟩, rfl⟩ := hv
    rw [hp _ hlt, valueAt_keyOf]
    exact ⟨positionOf_lt v, hv⟩
  · intro q hq
    obtain ⟨hq, hpq⟩ := (hp k hlt q).1 hq
    simp only [coe_filter, mem_filter, mem_range, Set.mem_ofPred_eq]
    exact ⟨⟨valueAt_lt hlt hq, hpq⟩, keyOf_valueAt k hq⟩
  · intro v hv
    simp only [coe_filter, mem_filter, Set.mem_ofPred_eq] at hv
    rw [← hv.2, valueAt_keyOf]
  · intro q hq
    exact positionOf_valueAt k ((hp k hlt q).1 hq).1

namespace Span

theorem mem_positions {q : Nat} : q ∈ span.positions key ↔
    q < chunkSize ∧ span.first ≤ valueAt key q ∧ valueAt key q ≤ span.last := by
  simp only [positions, firstIn, lastIn, firstKey, lastKey, valueAt, keyOf, positionOf,
    lastPosition, chunkSize]
  grind

theorem sum_keys (hlast : span.last < domainSize) {g : Nat → Nat}
    (hg : ∀ k, span.positions k = ∅ → g k = 0) :
    ∑ k ∈ Ico span.firstKey (span.lastKey + 1), g k = ∑ k ∈ range chunkSize, g k := by
  apply sum_subset
  · intro k hk
    have hkey := lastKey_lt hlast
    simp only [mem_Ico, mem_range] at *
    omega
  · intro k _ hk
    apply hg k
    apply positions_outside
    simp only [mem_Ico] at hk
    omega

end Span

namespace IntSet

theorem rebuildFrom_count {f : Nat → Option Chunk → Chunk × Nat} {old : List Entry}
    (hold : Segment Entry.key (Entry.Denotes P) F a (a + n) old) {N : Nat → Nat}
    (hf : ∀ key, a ≤ key → key < a + n → ∀ chunk?, SlotDenotes P chunk? (F key) →
      (f key chunk?).2 = N key) (out : Array Entry) (count : Nat) :
    (rebuildFrom f (List.range' a n) old out count).2 = count + ∑ k ∈ Ico a (a + n), N k := by
  induction n generalizing a old out count with
  | zero => simp [rebuildFrom]
  | succ n ih =>
    have hlt : a < a + (n + 1) := by omega
    obtain ⟨hslot, hrest⟩ := Entry.takeKey_segment hold hlt
    have hcount := hf a (Nat.le_refl a) hlt _ hslot
    have hsum := sum_eq_sum_Ico_succ_bot hlt N
    have hend : a + (n + 1) = a + 1 + n := by omega
    rw [hend] at hrest hsum ⊢
    rw [hsum, ← hcount, ← Nat.add_assoc]
    exact ih hrest (fun key hkey hkey' => hf key (by omega) (by omega)) _ _

theorem rebuild_count (h : s.Denotes P F) (hle : span.first ≤ span.last)
    (hlast : span.last < domainSize) {f : Nat → Option Chunk → Chunk × Nat} {N : Nat → Nat}
    (hf : ∀ key, span.firstKey ≤ key → key ≤ span.lastKey → ∀ chunk?,
      SlotDenotes P chunk? (F key) → (f key chunk?).2 = N key) :
    (s.rebuild span f).2 = ∑ k ∈ Ico span.firstKey (span.lastKey + 1), N k := by
  have hkeys := Span.firstKey_le_lastKey hle
  have hwindow := Segment.extract_window h (Nat.zero_le span.firstKey) (Span.lastKey_lt hlast)
  have hcount : span.lastKey + 1 = span.firstKey + (span.lastKey + 1 - span.firstKey) := by omega
  rw [hcount] at hwindow ⊢
  have hsum := rebuildFrom_count hwindow (fun key hkey hkey' => hf key hkey (by omega))
    (s.entries.extract 0 (s.below span.firstKey)) 0
  rw [Nat.zero_add] at hsum
  exact hsum

theorem insertSpan_count (h : s.Denotes P F) (hle : span.first ≤ span.last)
    (hlast : span.last < domainSize) :
    (s.insertSpan span).2 = ∑ k ∈ range chunkSize, #(span.positions k \ F k) := by
  rw [← Span.sum_keys hlast (by simp +contextual)]
  apply rebuild_count h hle hlast
  intro key hfirst hkey chunk? hslot
  have hlo := Span.firstIn_le_lastIn hle key
  have hhi := Span.lastIn_lt span key
  rw [Span.positions_inside hfirst hkey]
  cases chunk? with
  | some c => exact (Chunk.insertRange_denotes hslot.1 hlo hhi).2.1
  | none =>
    have hnone : F key = ∅ := hslot
    simp only [hnone, sdiff_empty, Nat.card_Icc]
    omega

theorem eraseSpan_count (h : s.Denotes P F) (hle : span.first ≤ span.last)
    (hlast : span.last < domainSize) :
    (s.eraseSpan span).2 = ∑ k ∈ range chunkSize, #(F k ∩ span.positions k) := by
  have hwindow := Segment.extract_window h (Nat.zero_le span.firstKey) (Span.lastKey_lt hlast)
  have hcount : ∀ e ∈ (s.entries.extract (s.below span.firstKey) (s.upTo span.lastKey)).toList,
      erasedCount span e = #(F e.key ∩ span.positions e.key) := by
    intro e he
    have he := hwindow.element e he
    exact (erasedEntry_denotes Chunk.grade_valid hle ⟨he.2.2.1, he.2.2.1.valid, he.2.2.2.2⟩ he.1
      (Nat.le_of_lt_succ he.2.1)).2.2
  rw [← Span.sum_keys hlast (by simp +contextual),
    ← hwindow.sum_eq (g := fun k => #(F k ∩ span.positions k)) (by simp +contextual)]
  simp only [eraseSpan, ← Array.foldl_toList, foldl_erasedEntry, Nat.zero_add]
  exact congrArg List.sum (List.map_congr_left hcount)

/-! From positions to values. -/

theorem Denotes.mem_valueAt (h : s.Denotes P F) {k q : Nat} (hk : k < chunkSize)
    (hq : q < chunkSize) : valueAt k q ∈ s ↔ q ∈ F k := by
  rw [h.mem (valueAt_lt hk hq), keyOf_valueAt k hq, positionOf_valueAt k hq]

theorem mem_of_positions (op : Operation) (hs : s.Denotes P F)
    (ht : t.Denotes P fun k => op.onSets (F k) (span.positions k))
    (hspan : ∀ v, v ∈ bounds ↔ span.first ≤ v ∧ v ≤ span.last) :
    v ∈ t ↔ op.Holds (v ∈ s) (v ∈ bounds) := by
  by_cases hv : v < domainSize
  · simp [ht.mem hv, op.mem_onSets, hs.mem hv, Span.mem_positions, positionOf_lt, valueAt_keyOf,
      hspan]
  · have hvs : v ∉ s := fun h => hv (hs.lt_domainSize h)
    have hvt : v ∉ t := fun h => hv (ht.lt_domainSize h)
    have hvb : v ∉ bounds := fun h => hv h.1
    cases op <;> simp [Operation.Holds, hvs, hvt, hvb]

theorem card_missing (hs : s.Denotes P F)
    (hspan : ∀ v, v ∈ bounds ↔ span.first ≤ v ∧ v ≤ span.last) :
    #{v ∈ range domainSize | v ∈ bounds ∧ v ∉ s} =
      ∑ k ∈ range chunkSize, #(span.positions k \ F k) := by
  apply card_eq_sum
  intro k hk q
  rw [mem_sdiff, Span.mem_positions, ← hspan, and_assoc]
  exact and_congr_right fun hq => by rw [hs.mem_valueAt hk hq]

theorem card_present (hs : s.Denotes P F)
    (hspan : ∀ v, v ∈ bounds ↔ span.first ≤ v ∧ v ≤ span.last) :
    #{v ∈ range domainSize | v ∈ bounds ∧ v ∈ s} =
      ∑ k ∈ range chunkSize, #(F k ∩ span.positions k) := by
  apply card_eq_sum
  intro k hk q
  rw [inter_comm, mem_inter, Span.mem_positions, ← hspan, and_assoc]
  exact and_congr_right fun hq => by rw [hs.mem_valueAt hk hq]

/-! The changes. -/

theorem changeRange_reversed {β : Type} {start stop : Nat} (hstart : bounds.lower.value? = some start)
    (hstop : bounds.upper.value? = some stop) (hlt : stop < start) (unchanged : β)
    (f : IntSet → Span → IntSet × β) :
    s.changeRange bounds unchanged f = (s, .error (.startGreaterThanEnd start stop)) := by
  have hreversed := Bounds.reversed?_eq_some.2 ⟨hstart, hstop, hlt⟩
  simp [changeRange, Bounds.checked, hreversed]

theorem changeRange_unreversed {β : Type} {unchanged : β} {f : IntSet → Span → IntSet × β}
    {C : IntSet → β → Prop} (hbounds : bounds.InDomain)
    (hle : ∀ start ∈ bounds.lower.value?, ∀ stop ∈ bounds.upper.value?, start ≤ stop)
    (hnone : (∀ v, v ∉ bounds) → C s unchanged)
    (hspan : ∀ span : Span, span.first ≤ span.last → span.last < domainSize →
      (∀ v, v ∈ bounds ↔ span.first ≤ v ∧ v ≤ span.last) → C (f s span).1 (f s span).2) :
    ∃ t report, s.changeRange bounds unchanged f = (t, .ok report) ∧ C t report := by
  have hreversed : bounds.reversed? = none := by
    by_contra hne
    obtain ⟨⟨start, stop⟩, hsome⟩ := Option.ne_none_iff_exists'.1 hne
    obtain ⟨hstart, hstop, hlt⟩ := Bounds.reversed?_eq_some.1 hsome
    have hle := hle start hstart stop hstop
    omega
  cases hvalues : bounds.values? with
  | none =>
    refine ⟨s, unchanged, ?_, hnone fun v => Bounds.not_mem_of_values? hbounds hvalues⟩
    simp [changeRange, Bounds.checked, hreversed, hvalues]
  | some span =>
    obtain ⟨hfirst, hlast⟩ := Bounds.values?_spec hbounds hvalues
    refine ⟨_, _, ?_, hspan span hfirst hlast fun v => Bounds.mem_iff_of_values? hbounds hvalues⟩
    simp [changeRange, Bounds.checked, hreversed, hvalues]

variable (hs : s.Valid) (hbounds : bounds.InDomain)
  (hle : ∀ start ∈ bounds.lower.value?, ∀ stop ∈ bounds.upper.value?, start ≤ stop)

include hs hbounds hle

theorem insertRange_spec : ∃ t n, s.insertRange bounds = (t, .ok n) ∧
    n = #{v ∈ range domainSize | v ∈ bounds ∧ v ∉ s} ∧ t.Valid ∧
      ∀ v, v ∈ t ↔ v ∈ s ∨ v ∈ bounds := by
  refine changeRange_unreversed hbounds hle (fun hnone => ?_) fun span hfirst hlast hmem => ?_
  · simp only [hnone, false_and, filter_false, card_empty, or_false, implies_true, and_true]
    exact ⟨trivial, hs⟩
  · have hden := insertSpan_denotes Chunk.grade_valid hs.denotes hfirst hlast
    rw [card_missing hs.denotes hmem, insertSpan_count hs.denotes hfirst hlast]
    exact ⟨rfl, hden.valid, fun v => mem_of_positions .union hs.denotes hden hmem⟩

theorem eraseRange_spec : ∃ t n, s.eraseRange bounds = (t, .ok n) ∧
    n = #{v ∈ range domainSize | v ∈ bounds ∧ v ∈ s} ∧ t.Valid ∧
      ∀ v, v ∈ t ↔ v ∈ s ∧ v ∉ bounds := by
  refine changeRange_unreversed hbounds hle (fun hnone => ?_) fun span hfirst hlast hmem => ?_
  · simp only [hnone, false_and, filter_false, card_empty, not_false_eq_true, and_true,
      implies_true]
    exact ⟨trivial, hs⟩
  · have hden := eraseSpan_denotes Chunk.grade_valid hs.denotes hfirst hlast
    rw [card_present hs.denotes hmem, eraseSpan_count hs.denotes hfirst hlast]
    exact ⟨rfl, hden.valid, fun v => mem_of_positions .difference hs.denotes hden hmem⟩

theorem flip_spec : ∃ t u, s.flip bounds = (t, .ok u) ∧ t.Valid ∧
    ∀ v, v ∈ t ↔ v ∈ s ∧ v ∉ bounds ∨ v ∉ s ∧ v ∈ bounds := by
  refine changeRange_unreversed hbounds hle (fun hnone => ?_) fun span hfirst hlast hmem => ?_
  · simp [hnone, hs]
  · have hden := flipSpan_denotes Chunk.grade_valid hs.denotes hfirst hlast
    exact ⟨hden.valid, fun v => mem_of_positions .symmetricDifference hs.denotes hden hmem⟩

omit hs in
/-- A range without values changes nothing, not even a representation. -/
theorem changeRange_empty {β : Type} {unchanged : β} {f : IntSet → Span → IntSet × β}
    (hnone : ∀ v, v ∉ bounds) : s.changeRange bounds unchanged f = (s, .ok unchanged) := by
  obtain ⟨t, report, heq, rfl, rfl⟩ : ∃ t report,
      s.changeRange bounds unchanged f = (t, .ok report) ∧ t = s ∧ report = unchanged := by
    refine changeRange_unreversed hbounds hle (fun _ => ⟨rfl, rfl⟩) fun span hfirst _ hmem => ?_
    exact absurd ((hmem span.first).2 ⟨Nat.le_refl _, hfirst⟩) (hnone span.first)
  exact heq

omit hle

/-- Reversed bounds are refused and leave the set as it is. Any others change the values of the
range and no other values, however large the range, and report how many changed. -/
theorem changeRange_correct :
    (∀ start ∈ bounds.lower.value?, ∀ stop ∈ bounds.upper.value?, stop < start →
      s.insertRange bounds = (s, .error (.startGreaterThanEnd start stop)) ∧
      s.eraseRange bounds = (s, .error (.startGreaterThanEnd start stop)) ∧
      s.flip bounds = (s, .error (.startGreaterThanEnd start stop)) ∧
      s.flipped bounds = .error (.startGreaterThanEnd start stop)) ∧
    ((∀ start ∈ bounds.lower.value?, ∀ stop ∈ bounds.upper.value?, start ≤ stop) →
      (∃ t n, s.insertRange bounds = (t, .ok n) ∧
        n = #{v ∈ range domainSize | v ∈ bounds ∧ v ∉ s} ∧ t.Valid ∧
        ∀ v, v ∈ t ↔ v ∈ s ∨ v ∈ bounds) ∧
      (∃ t n, s.eraseRange bounds = (t, .ok n) ∧
        n = #{v ∈ range domainSize | v ∈ bounds ∧ v ∈ s} ∧ t.Valid ∧
        ∀ v, v ∈ t ↔ v ∈ s ∧ v ∉ bounds) ∧
      (∃ t, s.flip bounds = (t, .ok ()) ∧ s.flipped bounds = .ok t ∧ t.Valid ∧
        ∀ v, v ∈ t ↔ v ∈ s ∧ v ∉ bounds ∨ v ∉ s ∧ v ∈ bounds) ∧
      ((∀ v, v ∉ bounds) → s.insertRange bounds = (s, .ok 0) ∧
        s.eraseRange bounds = (s, .ok 0) ∧ s.flip bounds = (s, .ok ()) ∧
        s.flipped bounds = .ok s)) := by
  refine ⟨fun start hstart stop hstop hlt => ?_, fun hle => ⟨?_, ?_, ?_, fun hnone => ?_⟩⟩
  · have hflip : s.flip bounds = (s, .error (.startGreaterThanEnd start stop)) :=
      changeRange_reversed hstart hstop hlt _ _
    exact ⟨changeRange_reversed hstart hstop hlt _ _, changeRange_reversed hstart hstop hlt _ _,
      hflip, by simp [flipped, hflip]⟩
  · exact insertRange_spec hs hbounds hle
  · exact eraseRange_spec hs hbounds hle
  · obtain ⟨t, _, hflip, ht⟩ := flip_spec hs hbounds hle
    exact ⟨t, hflip, by simp [flipped, hflip], ht⟩
  · have hflip : s.flip bounds = (s, .ok ()) := changeRange_empty hbounds hle hnone
    exact ⟨changeRange_empty hbounds hle hnone, changeRange_empty hbounds hle hnone, hflip,
      by simp [flipped, hflip]⟩

omit hs hbounds

theorem changeRange_correct_mixed :
    let s : IntSet := ⟨#[⟨0, .array ⟨#[1, 2, 65535]⟩⟩, ⟨7, .runs ⟨#[⟨0, 9⟩, ⟨12, 65535⟩]⟩⟩]⟩
    let bounds : Bounds := ⟨.excluded 65534, .unbounded⟩
    let reversed : Bounds := ⟨.included 9, .excluded 3⟩
    s.Valid ∧ bounds.InDomain ∧ reversed.InDomain ∧
      s.flip reversed = (s, .error (.startGreaterThanEnd 9 3)) ∧
      (∀ start ∈ bounds.lower.value?, ∀ stop ∈ bounds.upper.value?, start ≤ stop) ∧
      ∃ t n, s.insertRange bounds = (t, .ok n) ∧
        n = #{v ∈ range domainSize | v ∈ bounds ∧ v ∉ s} ∧ t.Valid ∧
        ∀ v, v ∈ t ↔ v ∈ s ∨ v ∈ bounds := by
  intro s bounds reversed
  have hs : s.Valid := by decide
  have hbounds : bounds.InDomain := by
    simp [bounds, Bounds.InDomain, Bound.InDomain, Bound.value?, domainSize]
  have hreversed : reversed.InDomain := by
    simp [reversed, Bounds.InDomain, Bound.InDomain, Bound.value?, domainSize]
  have hle : ∀ start ∈ bounds.lower.value?, ∀ stop ∈ bounds.upper.value?, start ≤ stop := by
    simp [bounds, Bound.value?]
  exact ⟨hs, hbounds, hreversed, ((changeRange_correct hs hreversed).1 9 rfl 3 rfl (by decide)).2.2.1,
    hle, ((changeRange_correct hs hbounds).2 hle).1⟩

end IntSet

end ChunkedSet
