import ChunkedSet.IntSet.Compare
import ChunkedSet.Proofs.ChunkCompare
import ChunkedSet.Proofs.KnownSize

/-!
# Comparisons of sets

Comparing two sets key by key compares their assignments, and so their values, whatever the
representations of their chunks are.
-/

namespace ChunkedSet

variable {P : Chunk → Prop} {F G : Nat → Finset Nat} {s t : IntSet}

theorem Pairing.all_iff {Stands Stands' : Entry → Finset Nat → Prop} {p : Pairing → Bool}
    {A : Nat → Prop} {b : Nat} (hskip : ∀ k < b, F k = ∅ → G k = ∅ → A k)
    (hleft : ∀ x, x.key < b → Stands x (F x.key) → G x.key = ∅ → (p (.left x) = true ↔ A x.key))
    (hright : ∀ y, y.key < b → F y.key = ∅ → Stands' y (G y.key) →
      (p (.right y) = true ↔ A y.key))
    (hboth : ∀ x y, x.key < b → x.key = y.key → Stands x (F x.key) → Stands' y (G x.key) →
      (p (.both x y) = true ↔ A x.key))
    {xs ys : List Entry} (hxs : Segment Entry.key Stands F 0 b xs)
    (hys : Segment Entry.key Stands' G 0 b ys) : all p xs ys = true ↔ ∀ k < b, A k := by
  have hstep : ∀ (k : Nat) (ok : Bool) (pair : Pairing), (p pair = true ↔ A k) →
      (ok = true ↔ ∀ j < k, A j) →
      ((if ok then p pair else false) = true ↔ ∀ j < k + 1, A j) := by
    intro k ok pair hpair hok
    rw [Nat.forall_lt_succ_right, ← hpair, ← hok]
    cases ok <;> simp
  -- the flag tells of all keys that are behind the merge
  refine fold_keys (I := fun k ok => ok = true ↔ ∀ j < k, A j) ?_ ?_ ?_ ?_ (Nat.zero_le b) hxs hys
    (by simp)
  · intro k ok hk hF hG hok
    rw [Nat.forall_lt_succ_right, ← hok]
    exact (and_iff_left (hskip k hk hF hG)).symm
  · intro ok x hx hstands hG hok
    exact hstep x.key ok (.left x) (hleft x hx hstands hG) hok
  · intro ok y hy hF hstands hok
    exact hstep y.key ok (.right y) (hright y hy hF hstands) hok
  · intro ok x y hx hkey hstands hstands' hok
    exact hstep x.key ok (.both x y) (hboth x y hx hkey hstands hstands') hok

namespace Segment

variable {α β : Type} {key : α → Nat} {key' : β → Nat} {Stands : α → Finset Nat → Prop}
  {Stands' : β → Finset Nat → Prop} {R : α → β → Prop} {a b : Nat} {xs : List α} {ys : List β}

theorem forall₂_iff (hnonempty : ∀ x S, Stands x S → S.Nonempty)
    (hnonempty' : ∀ y S, Stands' y S → S.Nonempty)
    (hR : ∀ x y S T, Stands x S → Stands' y T → (R x y ↔ key x = key' y ∧ S = T))
    (hxs : Segment key Stands F a b xs) (hys : Segment key' Stands' G a b ys) :
    List.Forall₂ R xs ys ↔ ∀ k, a ≤ k → k < b → F k = G k := by
  induction xs generalizing a ys with
  | nil =>
    rw [List.forall₂_nil_left_iff, eq_nil_iff hys hnonempty']
    have hF := nil_iff.1 hxs
    refine forall₃_congr fun k hak hkb => ?_
    rw [hF k hak hkb, eq_comm]
  | cons x xs ih =>
    obtain ⟨⟨hax, hxb, hx⟩, hbefore, hrest⟩ := cons_iff.1 hxs
    cases ys with
    | nil =>
      refine iff_of_false (fun h => by cases h) fun heq => ?_
      have hnone := nil_iff.1 hys _ hax hxb
      rw [← heq _ hax hxb] at hnone
      exact (hnonempty x _ hx).ne_empty hnone
    | cons y ys =>
      obtain ⟨⟨hay, hyb, hy⟩, hbefore', hrest'⟩ := cons_iff.1 hys
      rw [List.forall₂_cons, hR x y _ _ hx hy]
      constructor
      · rintro ⟨⟨hkey, hxy⟩, htail⟩ k hak hkb
        rw [← hkey] at hbefore' hrest' hxy
        rcases Nat.lt_trichotomy k (key x) with hlt | rfl | hgt
        · rw [hbefore k hak hlt, hbefore' k hak hlt]
        · exact hxy
        · exact (ih hrest hrest').1 htail k hgt hkb
      · intro heq
        -- under the smaller of two different keys one side would have no positions
        have hkey : key x = key' y := by
          rcases Nat.lt_trichotomy (key x) (key' y) with hlt | hkey | hgt
          · have hnone := hbefore' _ hax hlt
            rw [← heq _ hax hxb] at hnone
            exact absurd hnone (hnonempty x _ hx).ne_empty
          · exact hkey
          · have hnone := hbefore _ hay hgt
            rw [heq _ hay hyb] at hnone
            exact absurd hnone (hnonempty' y _ hy).ne_empty
        rw [← hkey] at hrest' ⊢
        exact ⟨⟨rfl, heq _ hax hxb⟩,
          (ih hrest hrest').2 fun k hxk hkb => heq k (by omega) hkb⟩

end Segment

namespace IntSet

theorem isDisjoint_iff (hs : s.Denotes P F) (ht : t.Denotes P G) :
    s.isDisjoint t = true ↔ ∀ k < chunkSize, Disjoint (F k) (G k) := by
  refine Pairing.all_iff (A := fun k => Disjoint (F k) (G k)) ?_ ?_ ?_ ?_ hs ht
  · intro k _ hF _
    rw [hF]
    exact Finset.disjoint_empty_left _
  · intro x _ _ hG
    rw [hG]
    exact iff_of_true rfl (Finset.disjoint_empty_right _)
  · intro y _ hF _
    rw [hF]
    exact iff_of_true rfl (Finset.disjoint_empty_left _)
  · intro x y _ _ hx hy
    exact Chunk.isDisjoint_iff hx.1 hy.1

theorem Denotes.entries_size_le (hs : s.Denotes P F) (ht : t.Denotes P G)
    (hsub : ∀ k < chunkSize, F k ⊆ G k) : s.entries.size ≤ t.entries.size := by
  have hkeys : s.keys ⊆ t.keys := by
    intro k hk
    have hlt : k < chunkSize := by
      obtain ⟨e, he, rfl⟩ := List.mem_map.1 hk
      exact (hs.element e he).2.1
    exact (ht.mem_keys hlt).2 (((hs.mem_keys hlt).1 hk).mono (hsub k hlt))
  have hlength := (hs.entries.1.nodup.subperm hkeys).length_le
  rwa [keys, keys, List.length_map, List.length_map] at hlength

theorem isSubset_iff (hs : s.Denotes P F) (ht : t.Denotes P G) :
    s.isSubset t = true ↔ ∀ k < chunkSize, F k ⊆ G k := by
  rw [isSubset, Bool.and_eq_true, decide_eq_true_eq,
    Pairing.all_iff (A := fun k => F k ⊆ G k) ?_ ?_ ?_ ?_ hs ht]
  · exact and_iff_right_of_imp (hs.entries_size_le ht)
  · intro k _ hF _
    rw [hF]
    exact Finset.empty_subset _
  · intro x _ hx hG
    rw [hG]
    exact iff_of_false Bool.false_ne_true fun hsub => hx.2.2.ne_empty (Finset.subset_empty.1 hsub)
  · intro y _ hF _
    rw [hF]
    exact iff_of_true rfl (Finset.empty_subset _)
  · intro x y _ _ hx hy
    have hsize : x.size ≤ y.size ↔ (F x.key).card ≤ (G x.key).card := by
      rw [Entry.size, Entry.size, hx.1.size, hy.1.size]
    rw [Bool.and_eq_true, decide_eq_true_eq, hsize, Chunk.isSubset_iff hx.1 hy.1]
    exact and_iff_right_of_imp Finset.card_le_card

theorem equals_iff (hs : s.Denotes P F) (ht : t.Denotes P G) :
    s.equals t = true ↔ ∀ k < chunkSize, F k = G k := by
  have hall : s.equals t = true ↔ List.Forall₂ (fun e e' : Entry =>
      e.key = e'.key ∧ e.chunk.equals e'.chunk = true) s.entries.toList t.entries.toList := by
    rw [List.forall₂_iff_zip, equals, Bool.and_eq_true, beq_iff_eq, ← Array.all_toList,
      Array.toList_zip, List.all_eq_true]
    simp
  rw [hall, Segment.forall₂_iff (fun x S hx => hx.2.2) (fun y S hy => hy.2.2) ?_ hs ht]
  · simp
  · intro x y S T hx hy
    rw [Chunk.equals_iff hx.1 hy.1]

theorem forall_slots_iff (hs : s.Valid) (ht : t.Valid) {r : Prop → Prop → Prop}
    (hr : r False False) :
    (∀ k < chunkSize, ∀ p, r (p ∈ s.slots k) (p ∈ t.slots k)) ↔ ∀ v, r (v ∈ s) (v ∈ t) := by
  constructor
  · intro hall v
    by_cases hv : v < domainSize
    · have h := hall (keyOf v) (keyOf_lt hv) (positionOf v)
      rwa [← hs.denotes.mem hv, ← ht.denotes.mem hv] at h
    · rw [eq_false fun hmem => hv (hs.lt_domainSize hmem),
        eq_false fun hmem => hv (ht.lt_domainSize hmem)]
      exact hr
  · intro hall k hk p
    simp only [slots, Finset.mem_filter, Finset.mem_range]
    by_cases hp : p < chunkSize
    · simp only [hp, true_and]
      exact hall (valueAt k p)
    · simp only [hp, false_and]
      exact hr

/-- The comparisons of two sets are those of their values, in any representations. -/
theorem comparisons_correct (hs : s.Valid) (ht : t.Valid) :
    (s.equals t = true ↔ ∀ v, v ∈ s ↔ v ∈ t) ∧ (s.isSubset t = true ↔ ∀ v ∈ s, v ∈ t) ∧
      (s.isSuperset t = true ↔ ∀ v ∈ t, v ∈ s) ∧ (s.isDisjoint t = true ↔ ∀ v ∈ s, v ∉ t) := by
  have hsden := hs.denotes
  have htden := ht.denotes
  refine ⟨?_, ?_, ?_, ?_⟩
  · rw [equals_iff hsden htden, ← forall_slots_iff hs ht (r := Iff) Iff.rfl]
    exact forall₂_congr fun k _ => Finset.ext_iff
  · rw [isSubset_iff hsden htden, ← forall_slots_iff hs ht (r := (· → ·)) id]
    rfl
  · rw [isSuperset, isSubset_iff htden hsden, ← forall_slots_iff ht hs (r := (· → ·)) id]
    rfl
  · rw [isDisjoint_iff hsden htden, ← forall_slots_iff hs ht (r := fun p q => p → ¬q) fun h => h.elim]
    exact forall₂_congr fun k _ => Finset.disjoint_left

/-- The first two sets hold the same values, once as an array and once as a run. -/
theorem comparisons_correct_mixed :
    let s : IntSet := ⟨#[⟨0, .array ⟨#[3, 4, 5]⟩⟩, ⟨7, .runs ⟨#[⟨0, 9⟩, ⟨12, 65535⟩]⟩⟩]⟩
    let t : IntSet := ⟨#[⟨0, .runs ⟨#[⟨3, 5⟩]⟩⟩, ⟨7, .runs ⟨#[⟨0, 9⟩, ⟨12, 65535⟩]⟩⟩]⟩
    let u : IntSet := ⟨#[⟨7, .array ⟨#[10, 11]⟩⟩]⟩
    s.Valid ∧ t.Valid ∧ u.Valid ∧ (∀ v, v ∈ s ↔ v ∈ t) ∧ (∀ v ∈ s, v ∈ t) ∧ (∀ v ∈ s, v ∉ u) ∧
      ¬∀ v ∈ u, v ∈ s := by
  intro s t u
  have hs : s.Valid := by decide
  have ht : t.Valid := by decide
  have hu : u.Valid := by decide
  obtain ⟨hequals, hsubset, -, -⟩ := comparisons_correct hs ht
  obtain ⟨-, -, hsuperset, hdisjoint⟩ := comparisons_correct hs hu
  have hnot : s.isSuperset u = false := by cbv
  refine ⟨hs, ht, hu, hequals.1 (by cbv), hsubset.1 (by cbv), hdisjoint.1 (by cbv), fun hall => ?_⟩
  exact Bool.eq_false_iff.1 hnot (hsuperset.2 hall)

end IntSet

end ChunkedSet
