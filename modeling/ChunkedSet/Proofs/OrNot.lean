import Mathlib.Data.Nat.PSub
import ChunkedSet.Proofs.Pairs
import ChunkedSet.Proofs.SetSizes

/-!
# The union with what another set lacks

Below the bound the result is built key by key. Its size is a running count that starts from all
values of the window and is corrected by each pair of a merge: what the window of a key counted
for is taken off, and what the result has there is added.
-/

namespace ChunkedSet

open Finset

variable {P : Chunk → Prop} {F G : Nat → Finset Nat} {S T W : Finset Nat} {s t : IntSet}
  {c d : Chunk} {span : Span} {pair : Pairing} {last count n bound v : Nat}

/-! The counts with every subtraction checked: there is none if one would go below zero. -/

def Chunk.orNotSize? (c other : Chunk) (last : Nat) : Option Nat := do
  let lacking ← (c.size + (last + 1)).psub (other.rank last)
  let outside ← lacking.psub (c.rank last)
  return outside + c.intersectionSizeUpTo other last

namespace Pairing

def own? : Pairing → Option Chunk
  | left e => some e.chunk
  | right _ => none
  | both e _ => some e.chunk

def excluded? : Pairing → Option Chunk
  | left _ => none
  | right e => some e.chunk
  | both _ e => some e.chunk

def sizeBehind (pair : Pairing) : Nat := pair.own?.elim 0 Chunk.size

def sizeInside? (pair : Pairing) (last : Nat) : Option Nat :=
  match pair with
  | left e => (e.size + (last + 1)).psub (e.chunk.rank last)
  | right e => (last + 1).psub (e.chunk.rank last)
  | both e f => e.chunk.orNotSize? f.chunk last

end Pairing

namespace IntSet

def orNotCount? (span : Span) (count : Nat) (pair : Pairing) : Option Nat :=
  if span.lastKey < pair.key then some (count + pair.sizeBehind)
  else do
    let last := span.lastIn pair.key
    let others ← count.psub (last + 1)
    let here ← pair.sizeInside? last
    return others + here

def orNotSize? (s t : IntSet) (bound : Nat) : Except RangeError (Option Nat) :=
  match lastBelow bound with
  | .error e => .error e
  | .ok none => .ok (some s.size)
  | .ok (some last) =>
    .ok (Pairing.fold (fun count? pair => count?.bind (orNotCount? ⟨0, last⟩ · pair))
      s.entries.toList t.entries.toList (some (last + 1)))

end IntSet

/-! A checked count is the count. -/

theorem Chunk.orNotSize_eq (h : c.orNotSize? d last = some n) : c.orNotSize d last = n := by
  simp only [orNotSize?, Option.bind_eq_bind, Option.pure_def, Option.bind_eq_some_iff,
    Option.some_inj, Nat.psub_eq_some] at h
  obtain ⟨lacking, hlacking, outside, houtside, rfl⟩ := h
  rw [orNotSize]
  omega

namespace IntSet

theorem orNotCount_eq (h : orNotCount? span count pair = some n) :
    orNotCount span count pair = n := by
  rw [orNotCount?] at h
  split at h
  · rename_i hkey
    obtain rfl := Option.some_inj.1 h
    cases pair with
    | left e => exact if_pos hkey
    | right e => exact if_pos hkey
    | both e f => exact if_pos hkey
  · rename_i hkey
    simp only [Option.bind_eq_bind, Option.pure_def, Option.bind_eq_some_iff, Option.some_inj,
      Nat.psub_eq_some] at h
    obtain ⟨others, hothers, here, hhere, rfl⟩ := h
    cases pair with
    | left e =>
      have hhere := Nat.psub_eq_some.1 hhere
      refine (if_neg hkey).trans ?_
      dsimp only [Pairing.key] at *
      omega
    | right e =>
      have hhere := Nat.psub_eq_some.1 hhere
      refine (if_neg hkey).trans ?_
      dsimp only [Pairing.key] at *
      omega
    | both e f =>
      have hhere := Chunk.orNotSize_eq hhere
      refine (if_neg hkey).trans ?_
      dsimp only [Pairing.key] at *
      omega

theorem fold_orNotCount_eq {xs ys : List Entry}
    (h : Pairing.fold (fun count? pair => count?.bind (orNotCount? span · pair)) xs ys
      (some count) = some n) : Pairing.fold (orNotCount span) xs ys count = n := by
  refine Pairing.fold_rel (R := fun count? count => ∀ n, count? = some n → count = n)
    (fun n hn => Option.some_inj.1 hn) (fun pair _ count? count hcount n hn => ?_) n h
  obtain ⟨m, hm, hn⟩ := Option.bind_eq_some_iff.1 hn
  rw [hcount m hm]
  exact orNotCount_eq hn

theorem orNotSize_eq (h : s.orNotSize? t bound = .ok (some n)) : s.orNotSize t bound = .ok n := by
  rw [orNotSize?] at h
  rw [orNotSize]
  cases hcase : lastBelow bound with
  | error e =>
    rw [hcase] at h
    cases h
  | ok last? =>
    rw [hcase] at h
    cases last? with
    | none => rw [Option.some_inj.1 (Except.ok.inj h)]
    | some last => exact congrArg Except.ok (fold_orNotCount_eq (Except.ok.inj h))

end IntSet

/-! One chunk. -/

theorem card_union_sdiff_add (S T W : Finset Nat) :
    #(S ∪ W \ T) + #(S ∩ W) + #(T ∩ W) = #S + #W + #(S ∩ T ∩ W) := by
  have hunion := card_union_add_card_inter S (W \ T)
  have hwindow := card_sdiff_add_card_inter W T
  have hown := card_sdiff_add_card_inter (S ∩ W) T
  rw [inter_comm W T] at hwindow
  rw [← inter_sdiff_assoc] at hunion
  rw [inter_right_comm] at hown
  omega

theorem card_Icc_zero (last : Nat) : #(Icc 0 last) = last + 1 := by
  rw [Nat.card_Icc, Nat.sub_zero]

theorem Chunk.orNotSize?_eq_card (hc : c.Denotes S) (hd : d.Denotes T) (hlast : last < chunkSize) :
    c.orNotSize? d last = some #(S ∪ Icc 0 last \ T) := by
  have hcount := card_union_sdiff_add S T (Icc 0 last)
  have hown : #(S ∩ Icc 0 last) ≤ #S := card_le_card inter_subset_left
  have hexcluded : #(T ∩ Icc 0 last) ≤ #(Icc 0 last) := card_le_card inter_subset_right
  rw [card_Icc_zero] at hcount hexcluded
  rw [orNotSize?, hc.size, rank_eq_card hc hlast, rank_eq_card hd hlast,
    intersectionSizeUpTo_eq_card hc hd, Nat.psub_eq_sub (by omega)]
  dsimp only [Option.bind_eq_bind, Option.bind_some]
  rw [Nat.psub_eq_sub (by omega)]
  dsimp only [Option.bind_some, Option.pure_def]
  rw [Option.some_inj]
  omega

/-! One pair of a merge. -/

theorem Pairing.sizeBehind_eq_card (hown : SlotDenotes P pair.own? S) :
    pair.sizeBehind = #S := by
  cases pair with
  | left e => exact hown.1.size
  | right e =>
    have hnone : S = ∅ := hown
    rw [hnone]
    rfl
  | both e f => exact hown.1.size

theorem Pairing.sizeInside?_eq_card (hown : SlotDenotes P pair.own? S)
    (hexcluded : SlotDenotes P pair.excluded? T) (hlast : last < chunkSize) :
    pair.sizeInside? last = some #(S ∪ Icc 0 last \ T) := by
  have hcount := card_union_sdiff_add S T (Icc 0 last)
  have hwindow := card_Icc_zero last
  cases pair with
  | left e =>
    have hnone : T = ∅ := hexcluded
    have hsize : e.size = #S := hown.1.size
    simp only [hnone, empty_inter, inter_empty, card_empty, Nat.add_zero] at hcount ⊢
    rw [sizeInside?, Nat.psub_eq_some, hsize, Chunk.rank_eq_card hown.1 hlast]
    omega
  | right e =>
    have hnone : S = ∅ := hown
    simp only [hnone, empty_inter, card_empty, Nat.add_zero, Nat.zero_add] at hcount ⊢
    rw [sizeInside?, Nat.psub_eq_some, Chunk.rank_eq_card hexcluded.1 hlast]
    omega
  | both e f => exact Chunk.orNotSize?_eq_card hown.1 hexcluded.1 hlast

namespace IntSet

/-- A pair replaces what the window counted for at its key by what the result has there. -/
theorem orNotCount?_eq_some (hfirst : span.first = 0) (hown : SlotDenotes P pair.own? S)
    (hexcluded : SlotDenotes P pair.excluded? T)
    (hcount : #(span.positions pair.key) ≤ count) :
    orNotCount? span count pair = some (count - #(span.positions pair.key) +
      #(S ∪ span.positions pair.key \ T)) := by
  rw [orNotCount?]
  split
  · rename_i hkey
    rw [Span.positions_outside (Or.inr hkey), empty_sdiff, union_empty, card_empty, Nat.sub_zero,
      Pairing.sizeBehind_eq_card hown]
  · rename_i hkey
    rw [Span.positions_upTo hfirst (Nat.not_lt.1 hkey), card_Icc_zero] at hcount
    dsimp only
    rw [Span.positions_upTo hfirst (Nat.not_lt.1 hkey), card_Icc_zero, Nat.psub_eq_sub hcount,
      Pairing.sizeInside?_eq_card hown hexcluded (Span.lastIn_lt span pair.key)]
    rfl

/-! The whole merge. -/

theorem sum_positions (hfirst : span.first = 0) (hlast : span.last < domainSize) :
    ∑ k ∈ range chunkSize, #(span.positions k) = span.last + 1 := by
  have hwindow : ({v ∈ range domainSize | v ≤ span.last} : Finset Nat) = range (span.last + 1) := by
    ext v
    simp only [mem_filter, mem_range]
    omega
  rw [← card_eq_sum (p := fun v => v ≤ span.last), hwindow, card_range]
  intro k _ q
  rw [Span.mem_positions, hfirst, and_iff_right (Nat.zero_le _)]

theorem fold_orNotCount? (span : Span) (hfirst : span.first = 0)
    (hlast : span.last < domainSize) (hs : s.Denotes P F) (ht : t.Denotes P G) :
    Pairing.fold (fun count? pair => count?.bind (orNotCount? span · pair)) s.entries.toList
      t.entries.toList (some (span.last + 1)) =
        some (∑ k ∈ range chunkSize, #(F k ∪ span.positions k \ G k)) := by
  have htotal := sum_positions hfirst hlast
  have hfits : ∀ k < chunkSize, ∑ i ∈ range (k + 1), #(span.positions i) ≤ span.last + 1 := by
    intro k hk
    rw [← htotal]
    exact sum_le_sum_of_subset (range_subset_range.2 hk)
  let Counted (k : Nat) (count? : Option Nat) : Prop := ∃ n, count? = some n ∧
    n + ∑ i ∈ range k, #(span.positions i) =
      span.last + 1 + ∑ i ∈ range k, #(F i ∪ span.positions i \ G i)
  have hstep : ∀ count? pair, pair.key < chunkSize → SlotDenotes P pair.own? (F pair.key) →
      SlotDenotes P pair.excluded? (G pair.key) → Counted pair.key count? →
      Counted (pair.key + 1) (count?.bind (orNotCount? span · pair)) := by
    intro count? pair hkey hown hexcluded hcount
    obtain ⟨n, rfl, hn⟩ := hcount
    have hfit := hfits pair.key hkey
    rw [sum_range_succ] at hfit
    refine ⟨_, orNotCount?_eq_some hfirst hown hexcluded (by omega), ?_⟩
    rw [sum_range_succ, sum_range_succ]
    omega
  have hend : Counted chunkSize (Pairing.fold
      (fun count? pair => count?.bind (orNotCount? span · pair)) s.entries.toList
      t.entries.toList (some (span.last + 1))) := by
    refine Pairing.fold_keys (I := Counted) ?_ ?_ ?_ ?_ (Nat.zero_le _) hs ht ⟨_, rfl, by simp⟩
    · intro k count? _ hF hG hcount
      obtain ⟨n, rfl, hn⟩ := hcount
      refine ⟨n, rfl, ?_⟩
      rw [sum_range_succ, sum_range_succ, hF, hG, empty_union, sdiff_empty]
      omega
    · intro count? x hkey hx hG hcount
      exact hstep count? (.left x) hkey hx hG hcount
    · intro count? y hkey hF hy hcount
      exact hstep count? (.right y) hkey hF hy hcount
    · intro count? x y hkey _ hx hy hcount
      exact hstep count? (.both x y) hkey hx hy hcount
  obtain ⟨n, hn, hcount⟩ := hend
  rw [hn, Option.some_inj]
  omega

theorem lastBelow_of_gt (h : domainSize < bound) : lastBelow bound = .error (.outOfDomain bound) :=
  if_pos h

theorem lastBelow_succ (h : last < domainSize) : lastBelow (last + 1) = .ok (some last) := by
  have hle : ¬domainSize < last + 1 := by omega
  rw [lastBelow, if_neg hle]

theorem mem_of_orNot (hs : s.Denotes P F) (ht : t.Denotes P G) (hfirst : span.first = 0)
    (hlast : span.last < domainSize) {u : IntSet}
    (hu : u.Denotes P fun k => F k ∪ span.positions k \ G k) :
    v ∈ u ↔ v ∈ s ∨ v < span.last + 1 ∧ v ∉ t := by
  by_cases hv : v < domainSize
  · rw [hu.mem hv, hs.mem hv, ht.mem hv, mem_union, mem_sdiff, Span.mem_positions, valueAt_keyOf,
      hfirst, and_iff_right (Nat.zero_le v), and_iff_right (positionOf_lt v), Nat.lt_succ_iff]
  · have hvs : v ∉ s := fun h => hv (hs.lt_domainSize h)
    have hvu : v ∉ u := fun h => hv (hu.lt_domainSize h)
    have hout : ¬v < span.last + 1 := by omega
    simp [hvs, hvu, hout]

/-- A bound outside of the domain is refused. Below any other bound the result takes in whatever
the other set lacks, and its size is counted without any subtraction going below zero. -/
theorem orNot_correct (hs : s.Valid) (ht : t.Valid) (bound : Nat) :
    (domainSize < bound → s.orNot t bound = .error (.outOfDomain bound) ∧
      s.orNotSize t bound = .error (.outOfDomain bound)) ∧
    (bound ≤ domainSize → ∃ u n, s.orNot t bound = .ok u ∧ u.Valid ∧
      (∀ v, v ∈ u ↔ v ∈ s ∨ v < bound ∧ v ∉ t) ∧ s.orNotSize t bound = .ok n ∧
      s.orNotSize? t bound = .ok (some n) ∧ n = #{v ∈ range domainSize | v ∈ u}) := by
  refine ⟨fun hbound => ?_, fun hbound => ?_⟩
  · rw [orNot, orNotSize, lastBelow_of_gt hbound]
    exact ⟨rfl, rfl⟩
  · cases bound with
    | zero =>
      refine ⟨s, s.size, rfl, hs, fun v => ?_, rfl, rfl, hs.size_eq_card⟩
      simp
    | succ last =>
      have hlast : last < domainSize := Nat.lt_of_succ_le hbound
      have hcase := lastBelow_succ hlast
      let span : Span := ⟨0, last⟩
      let u : IntSet := ⟨orNotFrom span span.keys s.entries.toList t.entries.toList #[]⟩
      have hden : u.Denotes Chunk.Valid fun k => s.slots k ∪ span.positions k \ t.slots k :=
        orNotFrom_denotes Chunk.grade_valid hs.denotes ht.denotes rfl hlast
      have hcount := fold_orNotCount? span rfl hlast hs.denotes ht.denotes
      rw [← hden.size, hden.valid.size_eq_card] at hcount
      have hchecked : s.orNotSize? t (last + 1) = .ok (some #{v ∈ range domainSize | v ∈ u}) := by
        rw [orNotSize?, hcase]
        exact congrArg Except.ok hcount
      refine ⟨u, _, ?_, hden.valid, fun v => ?_, orNotSize_eq hchecked, hchecked, rfl⟩
      · rw [orNot, hcase]
      · exact mem_of_orNot hs.denotes ht.denotes rfl hlast hden

theorem orNot_correct_mixed :
    let s : IntSet := ⟨#[⟨0, .array ⟨#[1, 2, 65535]⟩⟩, ⟨7, .runs ⟨#[⟨0, 9⟩, ⟨12, 65535⟩]⟩⟩]⟩
    let t : IntSet := ⟨#[⟨0, .runs ⟨#[⟨2, 4⟩]⟩⟩, ⟨7, .array ⟨#[5, 11]⟩⟩, ⟨65535, .array ⟨#[0]⟩⟩]⟩
    s.Valid ∧ t.Valid ∧ domainSize < 4294967297 ∧
      s.orNotSize t 4294967297 = .error (.outOfDomain 4294967297) ∧
      458758 ≤ domainSize ∧ ∃ u n, s.orNot t 458758 = .ok u ∧ u.Valid ∧
        (∀ v, v ∈ u ↔ v ∈ s ∨ v < 458758 ∧ v ∉ t) ∧ s.orNotSize t 458758 = .ok n ∧
        s.orNotSize? t 458758 = .ok (some n) ∧ n = #{v ∈ range domainSize | v ∈ u} := by
  intro s t
  have hs : s.Valid := by decide
  have ht : t.Valid := by decide
  have hgt : domainSize < 4294967297 := by decide
  have hle : 458758 ≤ domainSize := by decide
  exact ⟨hs, ht, hgt, ((orNot_correct hs ht 4294967297).1 hgt).2, hle,
    (orNot_correct hs ht 458758).2 hle⟩

end IntSet

end ChunkedSet
