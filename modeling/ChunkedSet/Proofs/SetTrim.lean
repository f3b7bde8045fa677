import ChunkedSet.IntSet.Trim
import ChunkedSet.Proofs.SetPoints

/-!
# Trimmed, moved and converted sets

Trims drop whole entries and change at most one. A shift by whole chunks moves keys, any other
shift appends the moved values in increasing order.
-/

namespace ChunkedSet

variable {P : Chunk → Prop} {F G : Nat → Finset Nat} {S : Finset Nat} {s t : IntSet} {e : Entry}
  {a b : Nat} {xs : List Entry}

theorem Entry.Denotes.size_eq (h : e.Denotes P S) : e.size = S.card := h.1.size

theorem Entry.dropSmallest_denotes (hP : Chunk.Grade P) (h : e.Denotes P S) {n : Nat}
    (hn : n < e.size) :
    (⟨e.key, e.chunk.dropSmallest n⟩ : Entry).Denotes P ((S.sort (· ≤ ·)).drop n).toFinset := by
  obtain ⟨hden, hfits⟩ := Chunk.dropSmallest_denotes h.1 n
  refine Entry.denotes_of_fits hP hden hfits (Finset.card_pos.1 ?_)
  rw [h.size_eq] at hn
  rw [Chunk.card_dropSmallest]
  omega

theorem Entry.dropBiggest_denotes (hP : Chunk.Grade P) (h : e.Denotes P S) {n : Nat}
    (hn : n < e.size) :
    (⟨e.key, e.chunk.dropBiggest n⟩ : Entry).Denotes P
      ((S.sort (· ≤ ·)).take (S.card - n)).toFinset := by
  obtain ⟨hden, hfits⟩ := Chunk.dropBiggest_denotes h.1 n
  refine Entry.denotes_of_fits hP hden hfits (Finset.card_pos.1 ?_)
  rw [h.size_eq] at hn
  rw [Chunk.card_dropBiggest]
  omega

namespace IntSet

theorem dropIn_segment (hP : Chunk.Grade P)
    (h : Segment Entry.key (Entry.Denotes P) F a b xs) (n : Nat) :
    ∃ G, Segment Entry.key (Entry.Denotes P) G a b (dropIn Chunk.dropSmallest xs n) := by
  induction xs generalizing a n with
  | nil => exact ⟨F, h⟩
  | cons e rest ih =>
    obtain ⟨he, -, hrest⟩ := Segment.cons_iff.1 h
    rw [dropIn]
    split
    · exact Segment.exists_lower (ih hrest _) (he.1.trans (Nat.le_succ _))
    · rename_i hsize
      split
      · exact Segment.exists_cons he.1 he.2.1
          (Entry.dropSmallest_denotes hP he.2.2 (Nat.not_le.1 hsize)) ⟨F, hrest⟩
      · exact ⟨F, h⟩

theorem dropSmallest_denotes (hP : Chunk.Grade P) (h : s.Denotes P F) (n : Nat) :
    ∃ G, (s.dropSmallest n).Denotes P G := by
  obtain ⟨G, hG⟩ := dropIn_segment hP h n
  refine ⟨G, ?_⟩
  rw [Denotes, dropSmallest, List.toList_toArray]
  exact hG

theorem dropIn_reverse_segment (hP : Chunk.Grade P)
    (h : Segment Entry.key (Entry.Denotes P) F a b xs.reverse) (hab : a ≤ b) (n : Nat) :
    ∃ G, Segment Entry.key (Entry.Denotes P) G a b (dropIn Chunk.dropBiggest xs n).reverse := by
  induction xs generalizing b n with
  | nil => exact ⟨F, h⟩
  | cons e rest ih =>
    have hconcat := h
    rw [List.reverse_cons] at hconcat
    obtain ⟨he, hrest⟩ := hconcat.of_concat
    rw [dropIn]
    split
    · exact Segment.exists_extend (ih hrest he.1 _) he.1 he.2.1.le
    · rename_i hsize
      split
      · rw [List.reverse_cons]
        have hlast := Segment.exists_concat ⟨F, hrest⟩ he.1 (Nat.le_refl _)
          (Entry.dropBiggest_denotes hP he.2.2 (Nat.not_le.1 hsize))
          (x := ⟨e.key, e.chunk.dropBiggest n⟩)
        exact Segment.exists_extend hlast (he.1.trans (Nat.le_succ _)) he.2.1
      · exact ⟨F, h⟩

theorem dropBiggest_denotes (hP : Chunk.Grade P) (h : s.Denotes P F) (n : Nat) :
    ∃ G, (s.dropBiggest n).Denotes P G := by
  have hreverse := h
  rw [Denotes, ← List.reverse_reverse s.entries.toList] at hreverse
  obtain ⟨G, hG⟩ := dropIn_reverse_segment hP hreverse (Nat.zero_le _) n
  refine ⟨G, ?_⟩
  rw [Denotes, dropBiggest, List.toList_toArray]
  exact hG

theorem limitIn_segment (hP : Chunk.Grade P) (h : Segment Entry.key (Entry.Denotes P) F a b xs)
    (hab : a ≤ b) {out : Array Entry}
    (hout : ∃ G, Segment Entry.key (Entry.Denotes P) G 0 a out.toList) (n : Nat) :
    ∃ G, Segment Entry.key (Entry.Denotes P) G 0 b (limitIn xs n out).toList := by
  induction xs generalizing a out n with
  | nil => exact Segment.exists_extend hout (Nat.zero_le a) hab
  | cons e rest ih =>
    obtain ⟨he, -, hrest⟩ := Segment.cons_iff.1 h
    rw [limitIn]
    split
    · exact Segment.exists_extend hout (Nat.zero_le a) hab
    · rename_i hn
      dsimp only
      split
      · rename_i hlt
        have hkept := Entry.dropBiggest_denotes hP he.2.2 (n := e.size - n) (by omega)
        refine ih hrest he.2.1 ?_ _
        rw [Array.toList_push]
        exact Segment.exists_concat (x := ⟨e.key, e.chunk.dropBiggest (e.size - n)⟩) hout
          (Nat.zero_le a) he.1 hkept
      · refine ih hrest he.2.1 ?_ _
        rw [Array.toList_push]
        exact Segment.exists_concat hout (Nat.zero_le a) he.1 he.2.2

theorem limit_denotes (hP : Chunk.Grade P) (h : s.Denotes P F) (n : Nat) :
    ∃ G, (s.limit n).Denotes P G :=
  limitIn_segment hP h (Nat.zero_le _) ⟨F, Segment.nil F 0⟩ n

/-! Shifts. -/

def movedEntry (keys : Int) (e : Entry) : Option Entry :=
  if 0 ≤ (e.key : Int) + keys ∧ (e.key : Int) + keys < chunkSize then
    some ⟨((e.key : Int) + keys).toNat, e.chunk⟩
  else none

theorem movedEntry_eq_some {keys : Int} {e f : Entry} :
    movedEntry keys e = some f ↔
      (f.key : Int) = e.key + keys ∧ f.key < chunkSize ∧ f.chunk = e.chunk := by
  rw [movedEntry, Option.ite_none_right_eq_some, Option.some_inj]
  constructor
  · intro h
    obtain ⟨hin, rfl⟩ := h
    refine ⟨Int.toNat_of_nonneg hin.1, ?_, rfl⟩
    simp only
    omega
  · intro h
    obtain ⟨hkey, hlt, hchunk⟩ := h
    refine ⟨by omega, ?_⟩
    rw [← hkey, Int.toNat_natCast, ← hchunk]

theorem shiftKeys_denotes (h : s.Denotes P F) (keys : Int) : ∃ G, (s.shiftKeys keys).Denotes P G := by
  refine ⟨fun k => if 0 ≤ (k : Int) - keys ∧ (k : Int) - keys < chunkSize then
    F ((k : Int) - keys).toNat else ∅, ?_⟩
  have hlist : (s.shiftKeys keys).entries.toList = s.entries.toList.filterMap (movedEntry keys) :=
    Array.toList_filterMap
  rw [Denotes, hlist]
  refine ⟨List.Pairwise.filterMap _ (fun e f hlt g hg g' hg' => ?_) h.sorted, fun f hf => ?_,
    fun k _ hk hne => ?_⟩
  · have hg := (movedEntry_eq_some.1 hg).1
    have hg' := (movedEntry_eq_some.1 hg').1
    omega
  · obtain ⟨e, he, hef⟩ := List.mem_filterMap.1 hf
    obtain ⟨hkey, hlt, hchunk⟩ := movedEntry_eq_some.1 hef
    have he' := h.element e he
    have hback : (f.key : Int) - keys = e.key := by omega
    refine ⟨Nat.zero_le _, hlt, ?_⟩
    rw [hback, Int.toNat_natCast, if_pos ⟨Int.natCast_nonneg _, by exact_mod_cast he'.2.1⟩,
      Entry.Denotes, hchunk]
    exact he'.2.2
  · split
    · rename_i hin
      refine h.absent _ (Nat.zero_le _) (by omega) fun e he hkey => ?_
      refine hne ⟨k, e.chunk⟩ (List.mem_filterMap.2 ⟨e, he, movedEntry_eq_some.2 ?_⟩) rfl
      exact ⟨by simp only; omega, hk, rfl⟩
    · rfl

def appendMoved (offset : Int) (out : IntSet) (v : Nat) : IntSet :=
  if 0 ≤ (v : Int) + offset ∧ (v : Int) + offset < domainSize then
    out.append ((v : Int) + offset).toNat
  else out

/-- The values moved so far lie below what the remaining ones move to. -/
theorem foldl_appendMoved_denotes (hP : Chunk.Grade P) (offset : Int) {values : List Nat}
    (hsorted : values.Pairwise (· < ·)) {out : IntSet} (hout : out.Denotes P F)
    (hbelow : ∀ u ∈ out, ∀ v ∈ values, (u : Int) < v + offset) :
    ∃ G, (values.foldl (appendMoved offset) out).Denotes P G ∧
      ∀ u, u ∈ values.foldl (appendMoved offset) out ↔
        u ∈ out ∨ u < domainSize ∧ ∃ v ∈ values, (v : Int) + offset = u := by
  induction values generalizing out F with
  | nil => exact ⟨F, hout, fun u => by simp⟩
  | cons v rest ih =>
    have hcons := List.pairwise_cons.1 hsorted
    rw [List.foldl_cons, appendMoved]
    split
    · rename_i hin
      have hlt : ((v : Int) + offset).toNat < domainSize := by omega
      have hlast : ∀ u ∈ out, u < ((v : Int) + offset).toNat := fun u hu => by
        have hu := hbelow u hu v List.mem_cons_self
        omega
      have hhead (u : Nat) : u = ((v : Int) + offset).toNat ↔
          u < domainSize ∧ (v : Int) + offset = u := by omega
      obtain ⟨G, hG, hmem⟩ := ih hcons.2 (append_denotes hP hout hlt hlast) fun u hu w hw => by
        have hvw := hcons.1 w hw
        rcases (mem_append hP hout hlt hlast).1 hu with heq | hu
        · omega
        · exact hbelow u hu w (List.mem_cons_of_mem v hw)
      refine ⟨G, hG, fun u => (hmem u).trans ?_⟩
      simp only [mem_append hP hout hlt hlast, hhead, List.mem_cons, exists_eq_or_imp]
      tauto
    · rename_i hleaves
      obtain ⟨G, hG, hmem⟩ := ih hcons.2 hout
        fun u hu w hw => hbelow u hu w (List.mem_cons_of_mem v hw)
      refine ⟨G, hG, fun u => (hmem u).trans ?_⟩
      have hhead : ¬(u < domainSize ∧ (v : Int) + offset = u) := by omega
      simp only [List.mem_cons, exists_eq_or_imp]
      tauto

theorem shiftValues_eq (s : IntSet) (offset : Int) :
    s.shiftValues offset = s.toList.foldl (appendMoved offset) empty := by
  have hfold : ∀ (xs : List Entry) (out : IntSet),
      xs.foldl (fun out e => e.chunk.positions.foldl (fun out p =>
        appendMoved offset out (e.value p)) out) out =
      (xs.flatMap Entry.toList).foldl (appendMoved offset) out := by
    intro xs
    induction xs with
    | nil => exact fun out => rfl
    | cons e rest ih =>
      intro out
      rw [List.foldl_cons, ih, List.flatMap_cons, List.foldl_append, ← Array.foldl_toList]
      rw [Entry.toList, List.foldl_map]
      rfl
  rw [shiftValues, ← Array.foldl_toList]
  exact hfold s.entries.toList empty

theorem shiftValues_denotes (hP : Chunk.Grade P) (h : s.Denotes P F) (offset : Int) :
    ∃ G, (s.shiftValues offset).Denotes P G ∧
      ∀ u, u ∈ s.shiftValues offset ↔ u < domainSize ∧ ∃ v ∈ s, (v : Int) + offset = u := by
  have hnone : ∀ u, u ∉ empty := fun u hu => by
    obtain ⟨e, he, -⟩ := (mem_def empty u).1 hu
    exact absurd he List.not_mem_nil
  obtain ⟨G, hG, hmem⟩ := foldl_appendMoved_denotes hP offset h.pairwise_toList empty_denotes
    fun u hu => absurd hu (hnone u)
  rw [← shiftValues_eq] at hG hmem
  refine ⟨G, hG, fun u => (hmem u).trans ?_⟩
  simp only [hnone u, false_or, h.mem_toList]

theorem addOffset_denotes (hP : Chunk.Grade P) (h : s.Denotes P F) (offset : Int) :
    ∃ G, (s.addOffset offset).Denotes P G := by
  rw [addOffset]
  split
  · exact shiftKeys_denotes h _
  · obtain ⟨G, hG, -⟩ := shiftValues_denotes hP h offset
    exact ⟨G, hG⟩

/-! Changes of representation. -/

def mapChunk (f : Chunk → Chunk × Bool) (acc : Array Entry × Bool) (e : Entry) :
    Array Entry × Bool :=
  (acc.1.push ⟨e.key, (f e.chunk).1⟩, acc.2 || (f e.chunk).2)

theorem mapChunks_eq_foldl (s : IntSet) (f : Chunk → Chunk × Bool) : s.mapChunks f =
    (⟨(s.entries.toList.foldl (mapChunk f) (#[], false)).1⟩,
      (s.entries.toList.foldl (mapChunk f) (#[], false)).2) := by
  rw [Array.foldl_toList]
  rfl

theorem foldl_mapChunk (f : Chunk → Chunk × Bool) (xs : List Entry) (acc : Array Entry × Bool) :
    xs.foldl (mapChunk f) acc =
      (acc.1 ++ xs.map fun e => Entry.mk e.key (f e.chunk).1,
        acc.2 || xs.any fun e => (f e.chunk).2) := by
  induction xs generalizing acc with
  | nil => simp
  | cons e rest ih => simp [ih, mapChunk, Bool.or_assoc]

theorem mapChunks_eq (s : IntSet) (f : Chunk → Chunk × Bool) :
    (s.mapChunks f).1.entries.toList =
      s.entries.toList.map fun e => ⟨e.key, (f e.chunk).1⟩ := by
  rw [mapChunks_eq_foldl, foldl_mapChunk, Array.toList_appendList]
  rfl

theorem mapChunks_flag (s : IntSet) (f : Chunk → Chunk × Bool) :
    (s.mapChunks f).2 = s.entries.toList.any fun e => (f e.chunk).2 := by
  rw [mapChunks_eq_foldl, foldl_mapChunk, Bool.false_or]

theorem mapChunks_denotes {Q : Chunk → Prop} (h : s.Denotes P F) {f : Chunk → Chunk × Bool}
    (hf : ∀ (c : Chunk) (S : Finset Nat), c.Denotes S → P c →
      (f c).1.Denotes S ∧ Q (f c).1) : (s.mapChunks f).1.Denotes Q F := by
  rw [Denotes, mapChunks_eq]
  refine h.map (fun e he => ⟨rfl, ?_⟩) fun _ _ _ hempty => hempty
  have he' := (h.element e he).2.2
  obtain ⟨hden, hQ⟩ := hf e.chunk _ he'.1 he'.2.1
  exact ⟨hden, hQ, he'.2.2⟩

/-- A step keeps a grade if it settles every chunk that it changes. -/
theorem mapChunks_denotes_of_step (hP : Chunk.Grade P) (h : s.Denotes P F)
    {f : Chunk → Chunk × Bool} (hf : ∀ (c : Chunk) (S : Finset Nat), c.Denotes S → P c →
      (f c).1.Denotes S ∧ ((f c).1 = c ∨ (f c).1.fits = true)) :
    (s.mapChunks f).1.Denotes P F := by
  apply mapChunks_denotes h
  intro c S hc hPc
  obtain ⟨hden, heq | hfits⟩ := hf c S hc hPc
  · rw [heq] at hden ⊢
    exact ⟨hden, hPc⟩
  · exact ⟨hden, hP _ hden.valid hfits⟩

theorem optimize_denotes (hP : Chunk.Grade P) (hwf : ∀ c : Chunk, c.Valid → P c → c.WellFormed)
    (h : s.Denotes P F) : s.optimize.1.Denotes P F :=
  mapChunks_denotes_of_step hP h fun c _ hc hPc =>
    ⟨Chunk.optimize_denotes hc, Chunk.optimize_eq_or_fits hc (hwf c hc.valid hPc)⟩

theorem withoutRuns_denotes (hP : Chunk.Grade P) (h : s.Denotes P F) :
    s.withoutRuns.1.Denotes P F :=
  mapChunks_denotes_of_step hP h fun _ _ hc _ =>
    ⟨Chunk.withoutRuns_denotes hc, Chunk.withoutRuns_eq_or_fits hc⟩

end IntSet

end ChunkedSet
