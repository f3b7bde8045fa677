import ChunkedSet.IntSet.Valid

/-!
# The values of a range

Resolved bounds give the first and the last value of the range, exactly if it has values.
-/

namespace ChunkedSet

variable {bound : Bound} {range : Bounds} {span : Span} {v : Nat}

namespace Bound

theorem below_iff (hv : v < domainSize) :
    bound.Below v ↔ ∃ first ∈ bound.first?, first ≤ v := by
  cases bound with
  | included lo => simp [Below, first?]
  | excluded lo =>
    simp only [Below, first?]
    split
    · simp only [Option.mem_def, Option.some_inj, exists_eq_left']
      exact Nat.lt_iff_add_one_le
    · rename_i hout
      constructor
      · intro hlt
        omega
      · rintro ⟨first, hfirst, -⟩
        cases hfirst
  | unbounded => simp [Below, first?]

theorem above_iff (hv : v < domainSize) : bound.Above v ↔ ∃ last ∈ bound.last?, v ≤ last := by
  cases bound with
  | included hi => simp [Above, last?]
  | excluded hi =>
    cases hi with
    | zero => simp [Above, last?]
    | succ hi =>
      simp only [Above, last?, Option.mem_def, Option.some_inj, exists_eq_left']
      exact Nat.lt_succ_iff
  | unbounded => simpa [Above, last?] using Nat.le_pred_of_lt hv

theorem last?_lt (h : bound.InDomain) {last : Nat} (hlast : bound.last? = some last) :
    last < domainSize := by
  cases bound with
  | included v =>
    have hv : v < domainSize := h v rfl
    rwa [← Option.some.inj hlast]
  | excluded v =>
    have hv : v < domainSize := h v rfl
    cases v with
    | zero => cases hlast
    | succ v =>
      rw [← Option.some.inj hlast]
      exact Nat.lt_of_succ_lt hv
  | unbounded =>
    rw [← Option.some.inj hlast]
    exact Nat.sub_lt (by decide) (by decide)

theorem value?_le_first? {first : Nat} (hv : bound.value? = some v)
    (hfirst : bound.first? = some first) : v ≤ first := by
  cases bound with
  | included lo => simp_all [value?, first?]
  | excluded lo =>
    simp only [value?, first?, Option.some_inj, Option.ite_none_right_eq_some] at hv hfirst
    omega
  | unbounded => cases hv

theorem last?_le_value? {last : Nat} (hv : bound.value? = some v)
    (hlast : bound.last? = some last) : last ≤ v := by
  cases bound with
  | included hi => simp_all [value?, last?]
  | excluded hi =>
    cases hi with
    | zero => cases hlast
    | succ hi =>
      simp only [value?, last?, Option.some_inj] at hv hlast
      omega
  | unbounded => cases hv

end Bound

namespace Bounds

theorem values?_eq_some : range.values? = some span ↔
    range.lower.first? = some span.first ∧ range.upper.last? = some span.last ∧
      span.first ≤ span.last := by
  obtain ⟨first, last⟩ := span
  simp only [values?]
  split
  · rename_i lo hi hlo hhi
    simp only [hlo, hhi, Option.ite_none_right_eq_some, Option.some_inj, Span.mk.injEq]
    grind
  · rename_i hnone
    simp only [reduceCtorEq, false_iff]
    exact fun h => hnone first last h.1 h.2.1

theorem values?_spec (hrange : range.InDomain) (h : range.values? = some span) :
    span.first ≤ span.last ∧ span.last < domainSize := by
  obtain ⟨-, hlast, hle⟩ := values?_eq_some.1 h
  exact ⟨hle, Bound.last?_lt hrange.2 hlast⟩

theorem checked_spec (hrange : range.InDomain) (h : range.checked = .ok (some span)) :
    span.first ≤ span.last ∧ span.last < domainSize := by
  rw [checked] at h
  split at h
  · cases h
  · exact values?_spec hrange (Except.ok.inj h)

theorem mem_iff (hrange : range.InDomain) :
    v ∈ range ↔ ∃ span ∈ range.values?, span.first ≤ v ∧ v ≤ span.last := by
  constructor
  · rintro ⟨hv, hbelow, habove⟩
    obtain ⟨first, hfirst, hle⟩ := (Bound.below_iff hv).1 hbelow
    obtain ⟨last, hlast, hle'⟩ := (Bound.above_iff hv).1 habove
    exact ⟨⟨first, last⟩, values?_eq_some.2 ⟨hfirst, hlast, Nat.le_trans hle hle'⟩, hle, hle'⟩
  · rintro ⟨span, hspan, hfirst, hlast⟩
    have hv : v < domainSize := Nat.lt_of_le_of_lt hlast (values?_spec hrange hspan).2
    obtain ⟨hlo, hhi, -⟩ := values?_eq_some.1 hspan
    exact ⟨hv, (Bound.below_iff hv).2 ⟨_, hlo, hfirst⟩, (Bound.above_iff hv).2 ⟨_, hhi, hlast⟩⟩

theorem mem_iff_of_values? (hrange : range.InDomain) (h : range.values? = some span) :
    v ∈ range ↔ span.first ≤ v ∧ v ≤ span.last := by
  simp [mem_iff hrange, h]

theorem not_mem_of_values? (hrange : range.InDomain) (h : range.values? = none) : v ∉ range := by
  simp [mem_iff hrange, h]

theorem reversed?_eq_some {start stop : Nat} : range.reversed? = some (start, stop) ↔
    range.lower.value? = some start ∧ range.upper.value? = some stop ∧ stop < start := by
  simp only [reversed?]
  split
  · rename_i lo hi hlo hhi
    simp only [hlo, hhi, Option.ite_none_right_eq_some, Option.some_inj, Prod.mk.injEq]
    grind
  · rename_i hnone
    simp only [reduceCtorEq, false_iff]
    exact fun h => hnone start stop h.1 h.2.1

/-- A reversed range has no values, so the question and the change agree about which it has. -/
theorem span?_eq_values? (range : Bounds) : range.span? = range.values? := by
  rw [span?]
  split
  · rename_i hsome
    obtain ⟨⟨start, stop⟩, hreversed⟩ := Option.isSome_iff_exists.1 hsome
    obtain ⟨hlower, hupper, hlt⟩ := reversed?_eq_some.1 hreversed
    have hnone : ∀ span, range.values? ≠ some span := by
      intro span hspan
      obtain ⟨hfirst, hlast, hle⟩ := values?_eq_some.1 hspan
      have hstart := Bound.value?_le_first? hlower hfirst
      have hstop := Bound.last?_le_value? hupper hlast
      omega
    exact (Option.eq_none_iff_forall_ne_some.2 hnone).symm
  · rfl

end Bounds

end ChunkedSet
