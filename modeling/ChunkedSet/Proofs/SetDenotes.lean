import ChunkedSet.Proofs.ChunkAlgebra
import ChunkedSet.Proofs.Segment

/-!
# Sets of integers as assignments

A set denotes an assignment of position sets to keys. A grade is a property of chunks that the
policy establishes; validity, well-formedness and fitting are grades.
-/

namespace ChunkedSet

/-- A property of chunks that every valid chunk has once the policy keeps its representation. -/
def Chunk.Grade (P : Chunk → Prop) : Prop := ∀ c : Chunk, c.Valid → c.fits = true → P c

theorem Chunk.grade_valid : Chunk.Grade Chunk.Valid := fun _ hvalid _ => hvalid

theorem Chunk.grade_wellFormed : Chunk.Grade Chunk.WellFormed := fun _ hvalid hfits =>
  wellFormed_of_fits hvalid hfits

theorem Chunk.grade_fits : Chunk.Grade (·.fits = true) := fun _ _ hfits => hfits

theorem Chunk.Grade.settle {P : Chunk → Prop} (hP : Chunk.Grade P) {c : Chunk} {S : Finset Nat}
    (h : c.Denotes S) : P c.settle :=
  hP _ (settle_denotes h).valid (fits_settle h)

def Entry.Denotes (P : Chunk → Prop) (e : Entry) (S : Finset Nat) : Prop :=
  e.chunk.Denotes S ∧ P e.chunk ∧ S.Nonempty

variable {P : Chunk → Prop} {F G : Nat → Finset Nat} {a b : Nat} {e : Entry} {S : Finset Nat}

theorem Entry.Denotes.isEmpty_eq_false (h : e.Denotes P S) : e.isEmpty = false :=
  h.1.isEmpty_eq_false h.2.2

theorem Entry.Denotes.size_pos (h : e.Denotes P S) : 0 < e.size := by
  have hsize : e.size = S.card := h.1.size
  rw [hsize]
  exact Finset.card_pos.2 h.2.2

theorem Entry.denotes_of_fits (hP : Chunk.Grade P) (h : e.chunk.Denotes S)
    (hfits : e.chunk.fits = true) (hS : S.Nonempty) : e.Denotes P S :=
  ⟨h, hP _ h.valid hfits, hS⟩

namespace IntSet

variable {s t : IntSet} {v : Nat}

/-- The entries list the assignment `F`, with chunks of the grade `P`. -/
def Denotes (P : Chunk → Prop) (s : IntSet) (F : Nat → Finset Nat) : Prop :=
  Segment Entry.key (Entry.Denotes P) F 0 chunkSize s.entries.toList

def slots (s : IntSet) (key : Nat) : Finset Nat :=
  (Finset.range chunkSize).filter fun p => valueAt key p ∈ s

theorem exists_mem_iff {xs : List Entry} (h : Segment Entry.key (Entry.Denotes P) F a b xs)
    {k p : Nat} (hak : a ≤ k) (hkb : k < b) :
    (∃ e ∈ xs, e.key = k ∧ p ∈ e.chunk) ↔ p ∈ F k := by
  constructor
  · intro hex
    obtain ⟨e, he, rfl, hp⟩ := hex
    exact ((h.element e he).2.2.1.2 p).1 hp
  · intro hp
    by_contra hnone
    have hempty := h.absent k hak hkb fun e he hkey => by
      refine hnone ⟨e, he, hkey, ?_⟩
      rw [← hkey] at hp
      exact ((h.element e he).2.2.1.2 p).2 hp
    rw [hempty] at hp
    exact absurd hp (Finset.notMem_empty p)

theorem Denotes.mem (h : s.Denotes P F) (hv : v < domainSize) :
    v ∈ s ↔ positionOf v ∈ F (keyOf v) := by
  rw [mem_def]
  exact exists_mem_iff h (Nat.zero_le _) (keyOf_lt hv)

theorem Denotes.lt_domainSize (h : s.Denotes P F) (hv : v ∈ s) : v < domainSize := by
  obtain ⟨e, he, hkey, -⟩ := (mem_def s v).1 hv
  have hlt := (h.element e he).2.1
  rw [hkey] at hlt
  unfold keyOf chunkSize at hlt
  unfold domainSize
  omega

theorem mem_slots {k p : Nat} :
    p ∈ s.slots k ↔ p < chunkSize ∧ ∃ e ∈ s.entries.toList, e.key = k ∧ p ∈ e.chunk := by
  rw [slots, Finset.mem_filter, Finset.mem_range, mem_def]
  refine and_congr_right fun hp => ?_
  rw [keyOf_valueAt k hp, positionOf_valueAt k hp]

theorem Denotes.slots_eq (h : s.Denotes P F) {k : Nat} (hk : k < chunkSize) : s.slots k = F k := by
  ext p
  rw [mem_slots, exists_mem_iff h (Nat.zero_le k) hk]
  refine and_iff_right_of_imp fun hp => ?_
  obtain ⟨e, he, rfl, -⟩ := (exists_mem_iff h (Nat.zero_le k) hk).2 hp
  exact (h.element e he).2.2.1.lt hp

theorem keys_injective (h : s.keys.Pairwise (· < ·)) {e f : Entry} (he : e ∈ s.entries.toList)
    (hf : f ∈ s.entries.toList) (hkey : e.key = f.key) : e = f :=
  List.inj_on_of_nodup_map h.nodup he hf hkey

theorem denotes_slots (hkeys : s.keys.Pairwise (· < ·))
    (hentries : ∀ e ∈ s.entries.toList,
      e.key < chunkSize ∧ e.chunk.Valid ∧ P e.chunk ∧ e.isEmpty = false) :
    s.Denotes P s.slots := by
  refine ⟨List.pairwise_map.1 hkeys, fun e he => ?_, fun k _ _ hne => ?_⟩
  · obtain ⟨hkey, hvalid, hP, hempty⟩ := hentries e he
    obtain ⟨S, hS⟩ := hvalid.denotes
    have hslots : s.slots e.key = S := by
      ext p
      rw [mem_slots]
      constructor
      · intro hp
        obtain ⟨-, f, hf, hfe, hmem⟩ := hp
        rw [keys_injective hkeys hf he hfe] at hmem
        exact (hS.2 p).1 hmem
      · intro hp
        exact ⟨hS.lt hp, e, he, rfl, (hS.2 p).2 hp⟩
    rw [hslots]
    exact ⟨Nat.zero_le _, hkey, hS, hP, hS.nonempty hempty⟩
  · rw [Finset.eq_empty_iff_forall_notMem]
    intro p hp
    obtain ⟨-, e, he, hkey, -⟩ := mem_slots.1 hp
    exact hne e he hkey

theorem Denotes.entries (h : s.Denotes P F) : s.keys.Pairwise (· < ·) ∧
    ∀ e ∈ s.entries.toList, e.key < chunkSize ∧ e.chunk.Valid ∧ P e.chunk ∧ e.isEmpty = false := by
  refine ⟨List.pairwise_map.2 h.sorted, fun e he => ?_⟩
  have he' := h.element e he
  exact ⟨he'.2.1, he'.2.2.1.valid, he'.2.2.2.1, he'.2.2.isEmpty_eq_false⟩

theorem Denotes.valid (h : s.Denotes P F) : s.Valid :=
  ⟨h.entries.1, fun e he =>
    ⟨(h.entries.2 e he).1, (h.entries.2 e he).2.1, (h.entries.2 e he).2.2.2⟩⟩

theorem Denotes.wellFormed (h : s.Denotes P F) (hP : ∀ c : Chunk, c.Valid → P c → c.WellFormed) :
    s.WellFormed :=
  ⟨h.entries.1, fun e he => ⟨(h.entries.2 e he).1,
    hP _ (h.entries.2 e he).2.1 (h.entries.2 e he).2.2.1, (h.entries.2 e he).2.2.2⟩⟩

theorem Valid.denotes (h : s.Valid) : s.Denotes Chunk.Valid s.slots :=
  denotes_slots h.1 fun e he => ⟨(h.2 e he).1, (h.2 e he).2.1, (h.2 e he).2.1, (h.2 e he).2.2⟩

theorem WellFormed.denotes (h : s.WellFormed) : s.Denotes Chunk.WellFormed s.slots :=
  denotes_slots h.1 fun e he =>
    ⟨(h.2 e he).1, (h.2 e he).2.1.valid, (h.2 e he).2.1, (h.2 e he).2.2⟩

theorem Valid.lt_domainSize (h : s.Valid) (hv : v ∈ s) : v < domainSize := h.denotes.lt_domainSize hv

theorem Valid.entry_size (h : s.Valid) (he : e ∈ s.entries.toList) :
    1 ≤ e.size ∧ e.size ≤ chunkSize := by
  have hden := h.denotes.element e he
  refine ⟨hden.2.2.size_pos, ?_⟩
  have hsize : e.size = (s.slots e.key).card := hden.2.2.1.size
  rw [hsize]
  exact hden.2.2.1.card_le

theorem Valid.count_le (h : s.Valid) : s.entries.size ≤ chunkSize := by
  have hsub : s.keys.toFinset ⊆ Finset.range chunkSize := fun k hk => by
    obtain ⟨e, he, rfl⟩ := List.mem_map.1 (List.mem_toFinset.1 hk)
    exact Finset.mem_range.2 (h.2 e he).1
  have hcard := Finset.card_le_card hsub
  rw [List.toFinset_card_of_nodup h.1.nodup, keys, List.length_map, Finset.card_range] at hcard
  exact hcard

theorem Denotes.mem_iff {Q : Chunk → Prop} (hs : s.Denotes P F) (ht : t.Denotes Q F) :
    v ∈ s ↔ v ∈ t := by
  constructor
  · intro hv
    have hlt := hs.lt_domainSize hv
    exact (ht.mem hlt).2 ((hs.mem hlt).1 hv)
  · intro hv
    have hlt := ht.lt_domainSize hv
    exact (hs.mem hlt).2 ((ht.mem hlt).1 hv)

/-! The listing of a set. -/

theorem pairwise_flatMap {xs : List Entry} (h : Segment Entry.key (Entry.Denotes P) F a b xs) :
    (xs.flatMap Entry.toList).Pairwise (· < ·) := by
  rw [List.pairwise_flatMap]
  refine ⟨fun e he => ?_, h.sorted.imp_of_mem fun he hf hlt v hv u hu => ?_⟩
  · have hden := (h.element e he).2.2.1
    rw [Entry.toList, hden.toList_eq_sort, List.pairwise_map]
    refine (Finset.sortedLT_sort _).pairwise.imp fun hpq => ?_
    exact Nat.add_lt_add_left hpq _
  · obtain ⟨p, hp, rfl⟩ := List.mem_map.1 hv
    obtain ⟨q, -, rfl⟩ := List.mem_map.1 hu
    have hden := (h.element _ he).2.2.1
    rw [hden.toList_eq_sort, Finset.mem_sort] at hp
    have hplt := hden.lt hp
    unfold chunkSize at hplt
    unfold Entry.value valueAt
    omega

theorem Denotes.pairwise_toList (h : s.Denotes P F) : s.toList.Pairwise (· < ·) :=
  pairwise_flatMap h

theorem Denotes.mem_toList (h : s.Denotes P F) : v ∈ s.toList ↔ v ∈ s := by
  rw [toList, List.mem_flatMap, mem_def]
  refine exists_congr fun e => and_congr_right fun he => ?_
  have hden := (h.element e he).2.2.1
  rw [Entry.toList, List.mem_map, hden.toList_eq_sort]
  constructor
  · intro hex
    obtain ⟨p, hp, rfl⟩ := hex
    rw [Finset.mem_sort] at hp
    have hplt := hden.lt hp
    rw [Entry.value, keyOf_valueAt _ hplt, positionOf_valueAt _ hplt]
    exact ⟨rfl, (hden.2 p).2 hp⟩
  · intro hv
    obtain ⟨hkey, hmem⟩ := hv
    refine ⟨positionOf v, (Finset.mem_sort _).2 ((hden.2 _).1 hmem), ?_⟩
    rw [Entry.value, hkey, valueAt_keyOf]

/-! Arrays of entries grow at the end. -/

theorem pushNonempty_segment {out : Array Entry}
    (h : Segment Entry.key (Entry.Denotes P) F a b out.toList) (hab : a ≤ b) (hbe : b ≤ e.key)
    (hnone : ∀ k, b ≤ k → k < e.key → F k = ∅) (hden : e.chunk.Denotes (F e.key))
    (hP : e.isEmpty = false → P e.chunk) :
    Segment Entry.key (Entry.Denotes P) F a (e.key + 1) (Entry.pushNonempty out e).toList := by
  have hempty : e.isEmpty = decide (F e.key = ∅) := hden.isEmpty
  rw [Entry.pushNonempty]
  split
  · rename_i hyes
    rw [hempty, decide_eq_true_eq] at hyes
    refine h.extend hab (hbe.trans (Nat.le_succ _)) fun k hbk hke => ?_
    rcases Nat.lt_succ_iff_lt_or_eq.1 hke with hlt | heq
    · exact hnone k hbk hlt
    · rw [heq, hyes]
  · rename_i hno
    rw [Bool.not_eq_true] at hno
    rw [Array.toList_push]
    exact h.push hab hbe hnone ⟨hden, hP hno, hden.nonempty hno⟩

/-! A fold over the entries of a set, each of which changes what stands at its key. -/

theorem Denotes.foldl_entries {ξ : Type} {D : ξ → (Nat → Finset Nat) → Prop} {f : ξ → Entry → ξ}
    {join : Finset Nat → Finset Nat → Finset Nat} (hjoin : ∀ S, join S ∅ = S)
    (hcongr : ∀ {x F G}, D x F → (∀ k, k < chunkSize → F k = G k) → D x G)
    (hstep : ∀ {x e S F G}, D x F → Entry.Denotes P e S → e.key < chunkSize →
      (∀ k, k ≠ e.key → G k = F k) → G e.key = join (F e.key) S → D (f x e) G)
    {x : ξ} (hx : D x F) (hs : s.Denotes P G) :
    D (s.entries.foldl f x) fun k => join (F k) (G k) := by
  -- The keys below `a` are done.
  have hfold : ∀ (xs : List Entry) (a : Nat) (x : ξ),
      Segment Entry.key (Entry.Denotes P) G a chunkSize xs →
      D x (fun k => if k < a then join (F k) (G k) else F k) →
      D (xs.foldl f x) fun k => join (F k) (G k) := by
    intro xs
    induction xs with
    | nil =>
      intro a x hxs hx
      refine hcongr hx fun k hk => ?_
      split
      · rfl
      · rename_i hak
        rw [Segment.nil_iff.1 hxs k (Nat.not_lt.1 hak) hk, hjoin]
    | cons e rest ih =>
      intro a x hxs hx
      obtain ⟨he, hbefore, hrest⟩ := Segment.cons_iff.1 hxs
      refine ih (e.key + 1) _ hrest (hstep hx he.2.2 he.2.1 (fun k hk => ?_) ?_)
      · by_cases hka : k < a
        · rw [if_pos hka, if_pos (by omega)]
        · rw [if_neg hka]
          split
          · rw [hbefore k (by omega) (by omega), hjoin]
          · rfl
      · rw [if_pos (Nat.lt_succ_self _), if_neg (Nat.not_lt.2 he.1)]
  rw [← Array.foldl_toList]
  exact hfold s.entries.toList 0 x hs (hcongr hx fun k _ => (if_neg (Nat.not_lt_zero k)).symm)

end IntSet

end ChunkedSet
