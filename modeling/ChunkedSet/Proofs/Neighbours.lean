import ChunkedSet.IntSet.Order
import ChunkedSet.Proofs.ChunkNeighbours
import ChunkedSet.Proofs.RangeChanges

/-!
# Neighbours in a set

A search for a neighbour asks the chunk of the value first and passes to the next key if that chunk
has no answer. One step of such a search is the same for values of the set and for missing ones;
what differs is which keys may be passed over.
-/

namespace ChunkedSet

open Finset

variable {P : Chunk → Prop} {F : Nat → Finset Nat} {s : IntSet} {xs : List Entry}
  {a b k p u v : Nat} {o o' : Option Nat}

theorem valueAt_lt_next (k : Nat) {q : Nat} (hq : q < chunkSize) :
    valueAt k q < valueAt (k + 1) 0 := by
  simp only [valueAt, chunkSize] at *
  omega

/-! One step, for a property of keys and positions. -/

section

variable {R : Nat → Nat → Prop}

/-- The least value of a chunk, or else the least one of the chunks behind it. -/
theorem least_across (hk : k < chunkSize) (hp : p < chunkSize)
    (hchunk : Least (fun q => p ≤ q ∧ q < chunkSize ∧ R k q) o)
    (hrest : Least (fun u => valueAt (k + 1) 0 ≤ u ∧ u < domainSize ∧ R (keyOf u) (positionOf u)) o') :
    Least (fun u => valueAt k p ≤ u ∧ u < domainSize ∧ R (keyOf u) (positionOf u))
      ((o.map (valueAt k)).or o') := by
  have hsplit : ∀ u, valueAt k p ≤ u → keyOf u = k ∧ p ≤ positionOf u ∨ valueAt (k + 1) 0 ≤ u := by
    intro u hu
    simp only [valueAt, keyOf, positionOf] at *
    omega
  cases o with
  | none =>
    refine hrest.congr fun u => ⟨fun hu => ⟨?_, hu.2⟩, fun hu => ⟨?_, hu.2⟩⟩
    · exact (valueAt_lt_next k hp).le.trans hu.1
    · rcases hsplit u hu.1 with ⟨rfl, hpu⟩ | hnext
      · exact absurd ⟨hpu, positionOf_lt u, hu.2.2⟩ (hchunk (positionOf u))
      · exact hnext
  | some q =>
    obtain ⟨⟨hpq, hq, hR⟩, hleast⟩ := hchunk
    refine ⟨⟨Nat.add_le_add_left hpq _, valueAt_lt hk hq, ?_⟩, ?_⟩
    · rwa [keyOf_valueAt k hq, positionOf_valueAt k hq]
    · rintro u ⟨hle, -, hu⟩
      rcases hsplit u hle with ⟨rfl, hpu⟩ | hnext
      · have hqu := hleast _ ⟨hpu, positionOf_lt u, hu⟩
        simp only [valueAt, keyOf, positionOf] at *
        omega
      · exact (valueAt_lt_next k hq).le.trans hnext

theorem greatest_across (hp : p < chunkSize)
    (hchunk : Greatest (fun q => q ≤ p ∧ R k q) o)
    (hrest : Greatest (fun u => u < valueAt k 0 ∧ R (keyOf u) (positionOf u)) o') :
    Greatest (fun u => u ≤ valueAt k p ∧ R (keyOf u) (positionOf u))
      ((o.map (valueAt k)).or o') := by
  have hsplit : ∀ u, u ≤ valueAt k p → keyOf u = k ∧ positionOf u ≤ p ∨ u < valueAt k 0 := by
    intro u hu
    simp only [valueAt, keyOf, positionOf, chunkSize] at *
    omega
  cases o with
  | none =>
    refine hrest.congr fun u => ⟨fun hu => ⟨?_, hu.2⟩, fun hu => ⟨?_, hu.2⟩⟩
    · exact hu.1.le.trans (Nat.add_le_add_left (Nat.zero_le p) _)
    · rcases hsplit u hu.1 with ⟨rfl, hup⟩ | hbefore
      · exact absurd ⟨hup, hu.2⟩ (hchunk (positionOf u))
      · exact hbefore
  | some q =>
    obtain ⟨⟨hqp, hR⟩, hgreatest⟩ := hchunk
    have hq := hqp.trans_lt hp
    refine ⟨⟨Nat.add_le_add_left hqp _, ?_⟩, ?_⟩
    · rwa [keyOf_valueAt k hq, positionOf_valueAt k hq]
    · rintro u ⟨hle, hu⟩
      rcases hsplit u hle with ⟨rfl, hup⟩ | hbefore
      · have huq := hgreatest _ ⟨hup, hu⟩
        simp only [valueAt, keyOf, positionOf] at *
        omega
      · exact hbefore.le.trans (Nat.add_le_add_left (Nat.zero_le q) _)

end

/-! The entries on either side of a key. -/

namespace Segment

variable {α : Type} {key : α → Nat} {Stands : α → Finset Nat → Prop} {entries : Array α}
  {x : α} {ys : List α} {c : Nat}

theorem extract_from (h : Segment key Stands F a c entries.toList) (hab : a ≤ b) :
    Segment key Stands F b c
      (entries.extract (partitionPoint (key · < b) entries) entries.size).toList := by
  have hlist : (entries.extract (partitionPoint (key · < b) entries) entries.size).toList =
      entries.toList.filter (b ≤ key ·) := by
    have hdrop := drop_partitionPoint (p := fun x => decide (key x < b)) h.sorted
      fun _ _ hlt hy => decide_eq_true (hlt.trans (of_decide_eq_true hy))
    have hnot : ∀ x, (!decide (key x < b)) = decide (b ≤ key x) := fun x => by
      rw [← decide_not, decide_eq_decide, Nat.not_lt]
    simp only [hnot] at hdrop
    rw [← hdrop]
    simp
  rw [hlist]
  exact h.filter_ge hab

theorem extract_upTo (h : Segment key Stands F a c entries.toList) (hbc : b < c) :
    Segment key Stands F a (b + 1)
      (entries.extract 0 (partitionPoint (key · ≤ b) entries)).toList := by
  have hlist : (entries.extract 0 (partitionPoint (key · ≤ b) entries)).toList =
      entries.toList.filter (key · < b + 1) := by
    have htake := take_partitionPoint (p := fun x => decide (key x ≤ b)) h.sorted
      fun _ _ hlt hy => decide_eq_true (hlt.le.trans (of_decide_eq_true hy))
    simp only [Nat.lt_succ_iff]
    rw [← htake]
    simp
  rw [hlist]
  exact h.filter_lt hbc

theorem absent_behind (h : Segment key Stands F a b (ys ++ [x])) (hxk : key x < k) (hkb : k < b) :
    F k = ∅ := by
  have hx := h.element x (by simp)
  refine h.absent k (hx.1.trans hxk.le) hkb fun y hy => ?_
  rcases List.mem_append.1 hy with hy | hy
  · have hlt := (List.pairwise_append.1 h.sorted).2.2 y hy x (List.mem_singleton.2 rfl)
    omega
  · rw [List.mem_singleton.1 hy]
    exact hxk.ne

end Segment

namespace IntSet

theorem findSome?_cons_eq_or {α β : Type} (f : α → Option β) (x : α) (xs : List α) :
    (x :: xs).findSome? f = (f x).or (xs.findSome? f) := by
  rw [List.findSome?_cons]
  cases f x <;> rfl

/-! Values of the set. -/

theorem start_le_iff (hvk : keyOf v ≤ k) :
    valueAt k (if k = keyOf v then positionOf v else 0) ≤ u ↔ v ≤ u ∧ k ≤ keyOf u := by
  split <;> simp only [valueAt, keyOf, positionOf] at * <;> omega

theorem le_stop_iff (hkv : k ≤ keyOf v) :
    u ≤ valueAt k (if k = keyOf v then positionOf v else lastPosition) ↔ u ≤ v ∧ keyOf u ≤ k := by
  split <;> simp only [valueAt, keyOf, positionOf, lastPosition] at * <;> omega

theorem findSome?_next_least (h : Segment Entry.key (Entry.Denotes P) F a chunkSize xs)
    (hva : keyOf v ≤ a) :
    Least (fun u => (v ≤ u ∧ a ≤ keyOf u) ∧ u < domainSize ∧ positionOf u ∈ F (keyOf u))
      (xs.findSome? fun e =>
        (e.chunk.next? (if e.key = keyOf v then positionOf v else 0)).map e.value) := by
  induction xs generalizing a with
  | nil =>
    rintro u ⟨⟨-, hau⟩, hu, hmem⟩
    rw [Segment.nil_iff.1 h _ hau (keyOf_lt hu)] at hmem
    exact notMem_empty _ hmem
  | cons e rest ih =>
    obtain ⟨⟨hae, hlt, hden⟩, hbefore, hrest⟩ := Segment.cons_iff.1 h
    have hve := hva.trans hae
    have hstart : (if e.key = keyOf v then positionOf v else 0) < chunkSize := by
      split
      · exact positionOf_lt v
      · exact Nat.zero_lt_succ _
    have hchunk : Least (fun q => (if e.key = keyOf v then positionOf v else 0) ≤ q ∧
        q < chunkSize ∧ q ∈ F e.key) (e.chunk.next? (if e.key = keyOf v then positionOf v else 0)) :=
      (Chunk.next?_least hden.1 _).congr fun q =>
        and_congr_right fun _ => (and_iff_right_of_imp fun hq => hden.1.lt hq).symm
    have hbehind := (ih hrest (hve.trans (Nat.le_succ _))).congr (Q := fun u =>
        valueAt (e.key + 1) 0 ≤ u ∧ u < domainSize ∧ positionOf u ∈ F (keyOf u)) fun u => by
      have hne : e.key + 1 ≠ keyOf v := by omega
      have hiff := start_le_iff (u := u) (hve.trans (Nat.le_succ e.key))
      rw [if_neg hne] at hiff
      rw [hiff]
    rw [findSome?_cons_eq_or]
    refine (least_across (R := fun k q => q ∈ F k) hlt hstart hchunk hbehind).congr fun u => ?_
    rw [start_le_iff hve]
    refine and_congr_left fun hu => and_congr_right fun _ => ?_
    refine ⟨hae.trans, fun hau => Nat.le_of_not_lt fun hgap => ?_⟩
    rw [hbefore _ hau hgap] at hu
    exact notMem_empty _ hu.2

theorem findSome?_previous_greatest (h : Segment Entry.key (Entry.Denotes P) F 0 b xs.reverse)
    (hbv : b ≤ keyOf v + 1) :
    Greatest (fun u => (u ≤ v ∧ keyOf u < b) ∧ positionOf u ∈ F (keyOf u))
      (xs.findSome? fun e =>
        (e.chunk.previous? (if e.key = keyOf v then positionOf v else lastPosition)).map e.value) := by
  induction xs generalizing b with
  | nil =>
    rintro u ⟨⟨-, hub⟩, hmem⟩
    rw [Segment.nil_iff.1 h _ (Nat.zero_le _) hub] at hmem
    exact notMem_empty _ hmem
  | cons e rest ih =>
    rw [List.reverse_cons] at h
    obtain ⟨⟨-, heb, hden⟩, hrest⟩ := h.of_concat
    have hev : e.key ≤ keyOf v := by omega
    have hstop : (if e.key = keyOf v then positionOf v else lastPosition) < chunkSize := by
      split
      · exact positionOf_lt v
      · exact Nat.lt_succ_self _
    have hbehind := (ih hrest (hev.trans (Nat.le_succ _))).congr (Q := fun u =>
        u < valueAt e.key 0 ∧ positionOf u ∈ F (keyOf u)) fun u => by
      refine and_congr_left fun _ => ?_
      simp only [valueAt, keyOf] at *
      omega
    rw [findSome?_cons_eq_or]
    refine (greatest_across (R := fun k q => q ∈ F k) hstop (Chunk.previous?_greatest hden.1 _)
      hbehind).congr fun u => ?_
    rw [le_stop_iff hev]
    refine and_congr_left fun hu => and_congr_right fun _ => ?_
    refine ⟨fun hle => hle.trans_lt heb, fun hub => Nat.le_of_not_lt fun hgap => ?_⟩
    rw [h.absent_behind hgap hub] at hu
    exact notMem_empty _ hu

theorem Valid.next?_least (h : s.Valid) (v : Nat) : Least (fun u => v ≤ u ∧ u ∈ s) (s.next? v) := by
  have hrest := Segment.extract_from h.denotes (Nat.zero_le (keyOf v))
  rw [next?, ← Array.findSome?_toList]
  refine (findSome?_next_least hrest (Nat.le_refl _)).congr fun u => ?_
  constructor
  · rintro ⟨⟨hvu, -⟩, hu, hmem⟩
    exact ⟨hvu, (h.denotes.mem hu).2 hmem⟩
  · rintro ⟨hvu, hmem⟩
    have hu := h.lt_domainSize hmem
    exact ⟨⟨hvu, Nat.div_le_div_right hvu⟩, hu, (h.denotes.mem hu).1 hmem⟩

theorem Valid.previous?_greatest (h : s.Valid) (hv : v < domainSize) :
    Greatest (fun u => u ≤ v ∧ u ∈ s) (s.previous? v) := by
  have hfront := Segment.extract_upTo h.denotes (keyOf_lt hv)
  rw [← List.reverse_reverse (Array.toList _)] at hfront
  rw [previous?, Array.findSomeRev?_eq_findSome?_reverse, ← Array.findSome?_toList,
    Array.toList_reverse]
  refine (findSome?_previous_greatest hfront (Nat.le_refl _)).congr fun u => ?_
  constructor
  · rintro ⟨⟨huv, -⟩, hmem⟩
    exact ⟨huv, (h.denotes.mem (huv.trans_lt hv)).2 hmem⟩
  · rintro ⟨huv, hmem⟩
    refine ⟨⟨huv, Nat.lt_succ_of_le (Nat.div_le_div_right huv)⟩, ?_⟩
    exact (h.denotes.mem (huv.trans_lt hv)).1 hmem

/-! Missing values. -/

theorem notMem_valueAt (hempty : F k = ∅) (hp : p < chunkSize) :
    positionOf (valueAt k p) ∉ F (keyOf (valueAt k p)) := by
  rw [keyOf_valueAt k hp, hempty]
  exact notMem_empty _

theorem nextAbsentIn_cons (e : Entry) (rest : List Entry) (k p : Nat) :
    nextAbsentIn (e :: rest) k p =
      if e.key = k then
        ((e.chunk.nextAbsent? p).map (valueAt k)).or
          (if k < lastPosition then nextAbsentIn rest (k + 1) 0 else none)
      else some (valueAt k p) := by
  rw [nextAbsentIn]
  cases e.chunk.nextAbsent? p <;> rfl

theorem previousAbsentIn_cons (e : Entry) (rest : List Entry) (k p : Nat) :
    previousAbsentIn (e :: rest) k p =
      if e.key = k then
        ((e.chunk.previousAbsent? p).map (valueAt k)).or
          (if k = 0 then none else previousAbsentIn rest (k - 1) lastPosition)
      else some (valueAt k p) := by
  rw [previousAbsentIn.eq_def]
  refine if_congr Iff.rfl ?_ rfl
  cases e.chunk.previousAbsent? p with
  | some q => rfl
  | none => cases k <;> rfl

theorem nextAbsentIn_least (h : Segment Entry.key (Entry.Denotes P) F k chunkSize xs)
    (hk : k < chunkSize) (hp : p < chunkSize) :
    Least (fun u => valueAt k p ≤ u ∧ u < domainSize ∧ positionOf u ∉ F (keyOf u))
      (nextAbsentIn xs k p) := by
  induction xs generalizing k p with
  | nil =>
    have hempty := Segment.nil_iff.1 h k (Nat.le_refl k) hk
    exact ⟨⟨Nat.le_refl _, valueAt_lt hk hp, notMem_valueAt hempty hp⟩, fun u hu => hu.1⟩
  | cons e rest ih =>
    obtain ⟨⟨hke, -, hden⟩, hbefore, hrest⟩ := Segment.cons_iff.1 h
    rw [nextAbsentIn_cons]
    split
    · rename_i heq
      subst heq
      have hbehind : Least (fun u => valueAt (e.key + 1) 0 ≤ u ∧ u < domainSize ∧
          positionOf u ∉ F (keyOf u))
          (if e.key < lastPosition then nextAbsentIn rest (e.key + 1) 0 else none) := by
        split
        · rename_i hlast
          exact ih hrest (Nat.succ_lt_succ hlast) (Nat.zero_lt_succ _)
        · rename_i hlast
          rintro u ⟨hle, hu, -⟩
          simp only [valueAt, lastPosition, domainSize] at hle hu hlast
          omega
      exact least_across (R := fun k q => q ∉ F k) hk hp (Chunk.nextAbsent?_least hden.1 hp) hbehind
    · rename_i hne
      have hempty := hbefore k (Nat.le_refl k) (lt_of_le_of_ne hke (Ne.symm hne))
      exact ⟨⟨Nat.le_refl _, valueAt_lt hk hp, notMem_valueAt hempty hp⟩, fun u hu => hu.1⟩

theorem previousAbsentIn_greatest
    (h : Segment Entry.key (Entry.Denotes P) F 0 (k + 1) xs.reverse) (hp : p < chunkSize) :
    Greatest (fun u => u ≤ valueAt k p ∧ positionOf u ∉ F (keyOf u)) (previousAbsentIn xs k p) := by
  induction xs generalizing k p with
  | nil =>
    have hempty := Segment.nil_iff.1 h k (Nat.zero_le k) (Nat.lt_succ_self k)
    exact ⟨⟨Nat.le_refl _, notMem_valueAt hempty hp⟩, fun u hu => hu.1⟩
  | cons e rest ih =>
    rw [List.reverse_cons] at h
    obtain ⟨⟨-, hek, hden⟩, hrest⟩ := h.of_concat
    rw [previousAbsentIn_cons]
    split
    · rename_i heq
      rw [heq] at hden hrest
      have hbehind : Greatest (fun u => u < valueAt k 0 ∧ positionOf u ∉ F (keyOf u))
          (if k = 0 then none else previousAbsentIn rest (k - 1) lastPosition) := by
        cases k with
        | zero => exact fun u hu => Nat.not_lt_zero u hu.1
        | succ lower =>
          refine (ih hrest (Nat.lt_succ_self _)).congr fun u => and_congr_left fun _ => ?_
          simp only [valueAt]
          omega
      exact greatest_across (R := fun k q => q ∉ F k) hp (Chunk.previousAbsent?_greatest hden.1 p)
        hbehind
    · rename_i hne
      have hempty := h.absent_behind (lt_of_le_of_ne (Nat.le_of_lt_succ hek) hne) (Nat.lt_succ_self k)
      exact ⟨⟨Nat.le_refl _, notMem_valueAt hempty hp⟩, fun u hu => hu.1⟩

theorem Valid.nextAbsent?_least (h : s.Valid) (hv : v < domainSize) :
    Least (fun u => v ≤ u ∧ u < domainSize ∧ u ∉ s) (s.nextAbsent? v) := by
  have hrest := Segment.extract_from h.denotes (Nat.zero_le (keyOf v))
  refine (nextAbsentIn_least hrest (keyOf_lt hv) (positionOf_lt v)).congr fun u => ?_
  rw [valueAt_keyOf]
  exact and_congr_right fun _ => and_congr_right fun hu => not_congr (h.denotes.mem hu).symm

theorem Valid.previousAbsent?_greatest (h : s.Valid) (hv : v < domainSize) :
    Greatest (fun u => u ≤ v ∧ u ∉ s) (s.previousAbsent? v) := by
  have hfront := Segment.extract_upTo h.denotes (keyOf_lt hv)
  rw [← List.reverse_reverse (Array.toList _)] at hfront
  refine (previousAbsentIn_greatest hfront (positionOf_lt v)).congr fun u => ?_
  rw [valueAt_keyOf]
  exact and_congr_right fun hu => not_congr (h.denotes.mem (hu.trans_lt hv)).symm

/-- Each search gives the nearest value of its kind within the domain, and nothing if there is
none. -/
theorem neighbours_correct (hs : s.Valid) (hv : v < domainSize) :
    Least (fun u => v ≤ u ∧ u ∈ s) (s.next? v) ∧
      Greatest (fun u => u ≤ v ∧ u ∈ s) (s.previous? v) ∧
      Least (fun u => v ≤ u ∧ u < domainSize ∧ u ∉ s) (s.nextAbsent? v) ∧
      Greatest (fun u => u ≤ v ∧ u ∉ s) (s.previousAbsent? v) :=
  ⟨hs.next?_least v, hs.previous?_greatest hv, hs.nextAbsent?_least hv,
    hs.previousAbsent?_greatest hv⟩

theorem neighbours_correct_full :
    let s : IntSet := ⟨#[⟨0, .runs ⟨#[⟨0, 65535⟩]⟩⟩, ⟨1, .array ⟨#[0, 1, 7]⟩⟩,
      ⟨65535, .runs ⟨#[⟨0, 65535⟩]⟩⟩]⟩
    s.Valid ∧ s.nextAbsent? 9 = some 65538 ∧ s.previousAbsent? 65537 = none ∧
      s.nextAbsent? 4294967295 = none ∧
      Least (fun u => 9 ≤ u ∧ u < domainSize ∧ u ∉ s) (some 65538) ∧
      Greatest (fun u => u ≤ 65537 ∧ u ∉ s) none ∧
      Least (fun u => 4294967295 ≤ u ∧ u < domainSize ∧ u ∉ s) none := by
  intro s
  have hs : s.Valid := by decide
  have hnext : s.nextAbsent? 9 = some 65538 := by cbv
  have hprevious : s.previousAbsent? 65537 = none := by cbv
  have hlast : s.nextAbsent? 4294967295 = none := by cbv
  refine ⟨hs, hnext, hprevious, hlast, ?_, ?_, ?_⟩
  · rw [← hnext]
    exact (neighbours_correct hs (by decide)).2.2.1
  · rw [← hprevious]
    exact (neighbours_correct hs (by decide)).2.2.2
  · rw [← hlast]
    exact (neighbours_correct hs (by decide)).2.2.1

end IntSet

end ChunkedSet
