import ChunkedSet.IntSet.Ranges
import ChunkedSet.Proofs.Bounds
import ChunkedSet.Proofs.Combine
import ChunkedSet.Proofs.SetPoints

/-!
# Ranges of values of a set

A change of a range rebuilds the segment of its keys between two segments that stay. What it
does at one key is a change of a range of positions.
-/

namespace ChunkedSet

variable {P : Chunk → Prop} {F G H : Nat → Finset Nat} {S : Finset Nat} {s t : IntSet}
  {a b n : Nat} {xs : List Entry}

/-- The chunk of a key, if there is one, has the grade and denotes what is assigned to the key. -/
def SlotDenotes (P : Chunk → Prop) (chunk? : Option Chunk) (S : Finset Nat) : Prop :=
  match chunk? with
  | some c => c.Denotes S ∧ P c ∧ S.Nonempty
  | none => S = ∅

theorem Entry.takeKey_segment (h : Segment Entry.key (Entry.Denotes P) F a b xs) (hab : a < b) :
    SlotDenotes P (takeKey a xs).1 (F a) ∧
      Segment Entry.key (Entry.Denotes P) F (a + 1) b (takeKey a xs).2 := by
  cases xs with
  | nil =>
    have hnone := Segment.nil_iff.1 h
    exact ⟨hnone a (Nat.le_refl a) hab, Segment.nil_iff.2 fun k hak hkb => hnone k (by omega) hkb⟩
  | cons e rest =>
    obtain ⟨he, hbefore, hrest⟩ := Segment.cons_iff.1 h
    by_cases hkey : e.key = a
    · rw [takeKey, if_pos hkey]
      rw [hkey] at hrest he
      exact ⟨he.2.2, hrest⟩
    · rw [takeKey, if_neg hkey]
      refine ⟨hbefore a (Nat.le_refl a) (by omega), h.raise (Nat.le_succ a) fun f hf => ?_⟩
      rcases List.mem_cons.1 hf with rfl | hf
      · omega
      · have hlt := (hrest.element f hf).1
        omega

namespace IntSet

theorem rebuildFrom_segment {f : Nat → Option Chunk → Chunk × Nat} {old : List Entry}
    {out : Array Entry} (hold : Segment Entry.key (Entry.Denotes P) F a (a + n) old)
    (hout : Segment Entry.key (Entry.Denotes P) G 0 a out.toList)
    (hf : ∀ key, a ≤ key → key < a + n → ∀ chunk?, SlotDenotes P chunk? (F key) →
      (f key chunk?).1.Denotes (G key) ∧ P (f key chunk?).1)
    (count : Nat) :
    Segment Entry.key (Entry.Denotes P) G 0 (a + n)
      (rebuildFrom f (List.range' a n) old out count).1.toList := by
  induction n generalizing a old out count with
  | zero => exact hout
  | succ n ih =>
    have hlt : a < a + (n + 1) := by omega
    obtain ⟨hslot, hrest⟩ := Entry.takeKey_segment hold hlt
    obtain ⟨hden, hP⟩ := hf a (Nat.le_refl a) hlt _ hslot
    have hpush := pushNonempty_segment (e := ⟨a, (f a (Entry.takeKey a old).1).1⟩) hout
      (Nat.zero_le a) (Nat.le_refl a) (fun k hk hk' => absurd hk' (Nat.not_lt.2 hk)) hden
      fun _ => hP
    have hend : a + (n + 1) = a + 1 + n := by omega
    rw [hend] at hrest ⊢
    exact ih hrest hpush (fun key hkey hkey' => hf key (by omega) (by omega)) _

theorem rebuild_denotes (h : s.Denotes P F) {span : Span} (hle : span.firstKey ≤ span.lastKey)
    (hlast : span.lastKey < chunkSize) {f : Nat → Option Chunk → Chunk × Nat}
    (hf : ∀ key, span.firstKey ≤ key → key ≤ span.lastKey → ∀ chunk?,
      SlotDenotes P chunk? (F key) → (f key chunk?).1.Denotes (G key) ∧ P (f key chunk?).1)
    (hFG : ∀ key, key < span.firstKey ∨ span.lastKey < key → G key = F key) :
    (s.rebuild span f).1.Denotes P G := by
  have hfront := (Segment.extract_front h (b := span.firstKey) (by omega)).congr
    fun k _ hk => (hFG k (Or.inl hk)).symm
  have hback := (Segment.extract_back h (b := span.lastKey) (Nat.zero_le _)).congr
    fun k hk _ => (hFG k (Or.inr hk)).symm
  have hwindow := Segment.extract_window h (Nat.zero_le span.firstKey) hlast
  have hcount : span.lastKey + 1 = span.firstKey + (span.lastKey + 1 - span.firstKey) := by omega
  rw [hcount] at hwindow
  have hmiddle := rebuildFrom_segment hwindow hfront
    (fun key hkey hkey' => hf key hkey (by omega)) 0
  rw [← hcount] at hmiddle
  have hall := hmiddle.append hback (Nat.zero_le _) hlast
  rw [← Array.toList_append] at hall
  exact hall

end IntSet

namespace Span

variable {span : Span} {key : Nat}

theorem firstIn_le_lastIn (h : span.first ≤ span.last) (key : Nat) :
    span.firstIn key ≤ span.lastIn key := by
  have hmod := positionOf_lt span.first
  have hmod' := positionOf_lt span.last
  unfold firstIn lastIn firstKey lastKey lastPosition
  unfold chunkSize at hmod hmod'
  split
  · split
    · unfold keyOf at *
      unfold positionOf
      omega
    · omega
  · exact Nat.zero_le _

theorem lastIn_lt (span : Span) (key : Nat) : span.lastIn key < chunkSize := by
  unfold lastIn
  split
  · exact positionOf_lt _
  · exact Nat.lt_succ_self _

theorem firstKey_le_lastKey (h : span.first ≤ span.last) : span.firstKey ≤ span.lastKey :=
  Nat.div_le_div_right h

theorem lastKey_lt (h : span.last < domainSize) : span.lastKey < chunkSize := keyOf_lt h

def positions (span : Span) (key : Nat) : Finset Nat :=
  if span.firstKey ≤ key ∧ key ≤ span.lastKey then
    Finset.Icc (span.firstIn key) (span.lastIn key)
  else ∅

theorem positions_inside (hfirst : span.firstKey ≤ key) (hlast : key ≤ span.lastKey) :
    span.positions key = Finset.Icc (span.firstIn key) (span.lastIn key) :=
  if_pos ⟨hfirst, hlast⟩

theorem positions_outside (h : key < span.firstKey ∨ span.lastKey < key) :
    span.positions key = ∅ :=
  if_neg fun hin => by omega

theorem positions_upTo (hfirst : span.first = 0) (hlast : key ≤ span.lastKey) :
    span.positions key = Finset.Icc 0 (span.lastIn key) := by
  have hkeys : span.firstKey ≤ key := by simp [firstKey, hfirst, keyOf]
  have hlow : span.firstIn key = 0 := by simp [firstIn, hfirst, positionOf]
  rw [positions_inside hkeys hlast, hlow]

end Span

namespace IntSet

/-- A span put together with what is there already, where nothing changes what it is put to. -/
theorem rebuildSpan_denotes (hP : Chunk.Grade P) (h : s.Denotes P F) {span : Span}
    (hle : span.first ≤ span.last) (hlast : span.last < domainSize)
    {join : Finset Nat → Finset Nat → Finset Nat} (hleft : ∀ S, join ∅ S = S)
    (hright : ∀ S, join S ∅ = S) {f : Nat → Option Chunk → Chunk × Nat}
    (hnone : ∀ key, (f key none).1 = .ofRange (span.firstIn key) (span.lastIn key))
    (hsome : ∀ (key : Nat) (c : Chunk) (S : Finset Nat), c.Denotes S →
      span.firstIn key ≤ span.lastIn key → span.lastIn key < chunkSize →
      (f key (some c)).1.Denotes (join S (Finset.Icc (span.firstIn key) (span.lastIn key))) ∧
        (f key (some c)).1.fits = true) :
    (s.rebuild span f).1.Denotes P fun k => join (F k) (span.positions k) := by
  refine rebuild_denotes h (Span.firstKey_le_lastKey hle) (Span.lastKey_lt hlast)
    (fun key hfirst hkey chunk? hslot => ?_) fun key hout => ?_
  · rw [Span.positions_inside hfirst hkey]
    have hlo := Span.firstIn_le_lastIn hle key
    have hhi := Span.lastIn_lt span key
    cases chunk? with
    | some c =>
      obtain ⟨hden, hfits⟩ := hsome key c _ hslot.1 hlo hhi
      exact ⟨hden, hP _ hden.valid hfits⟩
    | none =>
      have hempty : F key = ∅ := hslot
      have hden := Chunk.ofRange_denotes hlo hhi
      rw [hempty, hleft, hnone]
      exact ⟨hden, hP _ hden.valid (Chunk.fits_ofRange hlo hhi)⟩
  · rw [Span.positions_outside hout, hright]

theorem insertSpan_denotes (hP : Chunk.Grade P) (h : s.Denotes P F) {span : Span}
    (hle : span.first ≤ span.last) (hlast : span.last < domainSize) :
    (s.insertSpan span).1.Denotes P fun k => F k ∪ span.positions k := by
  refine rebuildSpan_denotes hP h hle hlast Finset.empty_union Finset.union_empty
    (fun _ => rfl) fun key c S hc hlo hhi => ?_
  obtain ⟨hden, -, hfits⟩ := Chunk.insertRange_denotes hc hlo hhi
  exact ⟨hden, hfits⟩

theorem flipSpan_denotes (hP : Chunk.Grade P) (h : s.Denotes P F) {span : Span}
    (hle : span.first ≤ span.last) (hlast : span.last < domainSize) :
    (s.flipSpan span).Denotes P fun k => symmDiff (F k) (span.positions k) :=
  rebuildSpan_denotes hP h hle hlast bot_symmDiff symmDiff_bot (fun _ => rfl)
    fun _ _ _ hc hlo hhi => Chunk.settle_spec (Chunk.flipRange_denotes hc hlo hhi)

def erasedEntry (span : Span) (e : Entry) : Entry :=
  ⟨e.key, (e.chunk.eraseRange (span.firstIn e.key) (span.lastIn e.key)).1⟩

def erasedCount (span : Span) (e : Entry) : Nat :=
  (e.chunk.eraseRange (span.firstIn e.key) (span.lastIn e.key)).2

theorem foldl_erasedEntry (span : Span) (xs : List Entry) (out : Array Entry) (n : Nat) :
    xs.foldl (fun (out, n) e =>
      let (chunk, k) := e.chunk.eraseRange (span.firstIn e.key) (span.lastIn e.key)
      (out.push ⟨e.key, chunk⟩, n + k)) (out, n) =
    (out ++ (xs.map (erasedEntry span)).toArray, n + (xs.map (erasedCount span)).sum) := by
  induction xs generalizing out n with
  | nil => simp
  | cons e rest ih =>
    rw [List.foldl_cons, ih]
    refine Prod.ext ?_ ?_
    · simp [erasedEntry]
    · simp only [List.map_cons, List.sum_cons, erasedCount]
      omega

theorem erasedEntry_denotes (hP : Chunk.Grade P) {span : Span} (hle : span.first ≤ span.last)
    {e : Entry} {S : Finset Nat} (he : e.Denotes P S) (hfirst : span.firstKey ≤ e.key)
    (hlast : e.key ≤ span.lastKey) :
    (erasedEntry span e).chunk.Denotes (S \ span.positions e.key) ∧
      P (erasedEntry span e).chunk ∧
      erasedCount span e = (S ∩ span.positions e.key).card := by
  obtain ⟨hden, hcount, hfits⟩ := Chunk.eraseRange_denotes he.1 (Span.firstIn_le_lastIn hle e.key)
    (Span.lastIn_lt span e.key)
  rw [Span.positions_inside hfirst hlast]
  exact ⟨hden, hP _ hden.valid hfits, hcount⟩

theorem eraseSpan_denotes (hP : Chunk.Grade P) (h : s.Denotes P F) {span : Span}
    (hle : span.first ≤ span.last) (hlast : span.last < domainSize) :
    (s.eraseSpan span).1.Denotes P fun k => F k \ span.positions k := by
  have hkey := Span.lastKey_lt hlast
  have hkeys := Span.firstKey_le_lastKey hle
  have hfront := (Segment.extract_front h (hkeys.trans hkey.le)).congr
    (G := fun k => F k \ span.positions k) fun k _ hk => by
      rw [Span.positions_outside (Or.inl hk), Finset.sdiff_empty]
  have hback := (Segment.extract_back h (b := span.lastKey) (Nat.zero_le _)).congr
    (G := fun k => F k \ span.positions k) fun k hk _ => by
      rw [Span.positions_outside (Or.inr hk), Finset.sdiff_empty]
  have hwindow := Segment.extract_window h (Nat.zero_le span.firstKey) hkey
  have hstep : ∀ e ∈ (s.entries.extract (s.below span.firstKey) (s.upTo span.lastKey)).toList,
      (erasedEntry span e).chunk.Denotes (F e.key \ span.positions e.key) ∧
        P (erasedEntry span e).chunk ∧
        erasedCount span e = (F e.key ∩ span.positions e.key).card := fun e he => by
    have he := hwindow.element e he
    exact erasedEntry_denotes hP hle he.2.2 he.1 (Nat.le_of_lt_succ he.2.1)
  rw [eraseSpan]
  dsimp only
  rw [← Array.foldl_toList, foldl_erasedEntry]
  dsimp only
  split
  · -- something was removed, and the entries that became empty are filtered out
    have hmiddle : Segment Entry.key (fun e S => e.chunk.Denotes S ∧ P e.chunk)
        (fun k => F k \ span.positions k) span.firstKey (span.lastKey + 1)
        ((s.entries.extract (s.below span.firstKey) (s.upTo span.lastKey)).toList.map
          (erasedEntry span)) :=
      hwindow.map (fun e he => ⟨rfl, (hstep e he).1, (hstep e he).2.1⟩)
        fun k _ _ hk => by rw [hk, Finset.empty_sdiff]
    have hall := ((hfront.imp fun e _ S he => ⟨he.1, he.2.1⟩).append hmiddle (Nat.zero_le _)
      (hkeys.trans (Nat.le_succ _))).append (hback.imp fun e _ S he => ⟨he.1, he.2.1⟩)
      (Nat.zero_le _) hkey
    have hkept : Segment Entry.key (Entry.Denotes P) (fun k => F k \ span.positions k) 0 chunkSize
        (List.filter (fun e => !e.isEmpty) _) := hall.filter
      (fun e he hno => by
        have he' := (hall.element e he).2.2
        rw [Bool.not_eq_true'] at hno
        exact ⟨he'.1, he'.2, he'.1.nonempty hno⟩)
      fun e he hno => by
        have he' := (hall.element e he).2.2
        have hempty : e.isEmpty = decide _ := he'.1.isEmpty
        rw [Bool.not_eq_false', hempty, decide_eq_true_eq] at hno
        exact hno
    rw [Denotes, Array.toList_filter, Array.toList_append, Array.toList_append]
    exact hkept
  · -- nothing was removed, so that no entry lost a value
    rename_i hnone
    rw [Nat.zero_add, Nat.not_lt, Nat.le_zero, List.sum_eq_zero_iff_forall_eq_nat] at hnone
    have hcount : ∀ e ∈ (s.entries.extract (s.below span.firstKey)
        (s.upTo span.lastKey)).toList, erasedCount span e = 0 := fun e he =>
      hnone _ (List.mem_map_of_mem he)
    have hmiddle : Segment Entry.key (Entry.Denotes P)
        (fun k => F k \ span.positions k) span.firstKey (span.lastKey + 1)
        ((s.entries.extract (s.below span.firstKey) (s.upTo span.lastKey)).toList.map
          (erasedEntry span)) :=
      hwindow.map (fun e he => by
        obtain ⟨hden, hP', hcard⟩ := hstep e he
        have hdisjoint : Disjoint (F e.key) (span.positions e.key) := by
          rw [hcount e he] at hcard
          rw [Finset.disjoint_iff_inter_eq_empty, ← Finset.card_eq_zero, ← hcard]
        refine ⟨rfl, hden, hP', ?_⟩
        rw [Finset.sdiff_eq_self_of_disjoint hdisjoint]
        exact (hwindow.element e he).2.2.2.2)
        fun k _ _ hk => by rw [hk, Finset.empty_sdiff]
    have hall := (hfront.append hmiddle (Nat.zero_le _) (hkeys.trans (Nat.le_succ _))).append
      hback (Nat.zero_le _) hkey
    rw [Denotes, Array.toList_append, Array.toList_append]
    exact hall

theorem changeRange_denotes {β : Type} (h : s.Denotes P F) {range : Bounds} (hrange : range.InDomain)
    (unchanged : β) {f : IntSet → Span → IntSet × β}
    (hf : ∀ span : Span, span.first ≤ span.last → span.last < domainSize →
      ∃ G, (f s span).1.Denotes P G) :
    ∃ G, (s.changeRange range unchanged f).1.Denotes P G := by
  rw [changeRange]
  cases hspan : range.checked with
  | error e => exact ⟨F, h⟩
  | ok span? =>
    cases span? with
    | none => exact ⟨F, h⟩
    | some span =>
      obtain ⟨hle, hlast⟩ := Bounds.checked_spec hrange hspan
      exact hf span hle hlast

theorem insertRange_denotes (hP : Chunk.Grade P) (h : s.Denotes P F) {range : Bounds}
    (hrange : range.InDomain) : ∃ G, (s.insertRange range).1.Denotes P G :=
  changeRange_denotes h hrange 0 fun _ hle hlast => ⟨_, insertSpan_denotes hP h hle hlast⟩

theorem eraseRange_denotes (hP : Chunk.Grade P) (h : s.Denotes P F) {range : Bounds}
    (hrange : range.InDomain) : ∃ G, (s.eraseRange range).1.Denotes P G :=
  changeRange_denotes h hrange 0 fun _ hle hlast => ⟨_, eraseSpan_denotes hP h hle hlast⟩

theorem flip_denotes (hP : Chunk.Grade P) (h : s.Denotes P F) {range : Bounds}
    (hrange : range.InDomain) : ∃ G, (s.flip range).1.Denotes P G :=
  changeRange_denotes h hrange () fun _ hle hlast => ⟨_, flipSpan_denotes hP h hle hlast⟩

theorem flipped_denotes (hP : Chunk.Grade P) (h : s.Denotes P F) {range : Bounds}
    (hrange : range.InDomain) (ht : s.flipped range = .ok t) : ∃ G, t.Denotes P G := by
  have hflip := flip_denotes hP h hrange
  rw [flipped] at ht
  split at ht
  · rename_i u hu
    rw [hu] at hflip
    rwa [Except.ok.inj ht] at hflip
  · cases ht

/-! The union with what another set lacks. -/

theorem orNotChunk_denotes {last : Nat} (hlast : last < chunkSize) {own excluded : Option Chunk}
    {T : Finset Nat} (hown : SlotDenotes P own S) (hexcluded : SlotDenotes P excluded T) :
    (orNotChunk last own excluded).Denotes (S ∪ Finset.Icc 0 last \ T) ∧
      (orNotChunk last own excluded).fits = true := by
  have hrange := Chunk.ofRange_denotes (Nat.zero_le last) hlast
  cases own with
  | some c =>
    cases excluded with
    | some d =>
      exact Chunk.settle_spec (Chunk.orNot_denotes hown.1 hexcluded.1 hlast)
    | none =>
      have hT : T = ∅ := hexcluded
      obtain ⟨hden, -, hfits⟩ := Chunk.insertRange_denotes hown.1 (Nat.zero_le last) hlast
      rw [hT, Finset.sdiff_empty]
      exact ⟨hden, hfits⟩
  | none =>
    have hS : S = ∅ := hown
    rw [hS, Finset.empty_union]
    cases excluded with
    | some d => exact Chunk.settle_spec (Chunk.differenceOnto_denotes hrange hexcluded.1)
    | none =>
      have hT : T = ∅ := hexcluded
      rw [hT, Finset.sdiff_empty]
      exact ⟨hrange, Chunk.fits_ofRange (Nat.zero_le last) hlast⟩

theorem orNotFrom_segment (hP : Chunk.Grade P) {span : Span} {own excluded : List Entry}
    {out : Array Entry} (hn : a + n ≤ chunkSize)
    (hown : Segment Entry.key (Entry.Denotes P) F a chunkSize own)
    (hexcluded : Segment Entry.key (Entry.Denotes P) G a chunkSize excluded)
    (hout : Segment Entry.key (Entry.Denotes P) H 0 a out.toList)
    (hinside : ∀ k, a ≤ k → k < a + n → H k = F k ∪ Finset.Icc 0 (span.lastIn k) \ G k)
    (houtside : ∀ k, a + n ≤ k → H k = F k) :
    Segment Entry.key (Entry.Denotes P) H 0 chunkSize
      (orNotFrom span (List.range' a n) own excluded out).toList := by
  induction n generalizing a own excluded out with
  | zero =>
    have hrest := hown.congr fun k hk _ => (houtside k hk).symm
    have hall := hout.append hrest (Nat.zero_le a) hn
    rw [List.range'_zero, orNotFrom, Array.toList_append, List.toList_toArray]
    exact hall
  | succ n ih =>
    have hlt : a < chunkSize := by omega
    obtain ⟨hmine, hown'⟩ := Entry.takeKey_segment hown hlt
    obtain ⟨htheirs, hexcluded'⟩ := Entry.takeKey_segment hexcluded hlt
    obtain ⟨hden, hfits⟩ := orNotChunk_denotes (Span.lastIn_lt span a) hmine htheirs
    rw [← hinside a (Nat.le_refl a) (by omega)] at hden
    have hpush := pushNonempty_segment (e := ⟨a, orNotChunk (span.lastIn a)
      (Entry.takeKey a own).1 (Entry.takeKey a excluded).1⟩) hout (Nat.zero_le a) (Nat.le_refl a)
      (fun k hk hk' => absurd hk' (Nat.not_lt.2 hk)) hden fun _ => hP _ hden.valid hfits
    exact ih (by omega) hown' hexcluded' hpush (fun k hk hk' => hinside k (by omega) (by omega))
      fun k hk => houtside k (by omega)

theorem lastBelow_lt {bound last : Nat} (h : lastBelow bound = .ok (some last)) :
    last < domainSize := by
  unfold lastBelow at h
  split at h
  · cases h
  · rename_i hle
    cases bound with
    | zero => cases h
    | succ n =>
      rw [← Option.some.inj (Except.ok.inj h)]
      omega

theorem orNotFrom_denotes (hP : Chunk.Grade P) (hs : s.Denotes P F) (ht : t.Denotes P G)
    {span : Span} (hfirst : span.first = 0) (hlast : span.last < domainSize) :
    Denotes P ⟨orNotFrom span span.keys s.entries.toList t.entries.toList #[]⟩
      fun k => F k ∪ span.positions k \ G k := by
  have hkey : span.lastKey < chunkSize := Span.lastKey_lt hlast
  have hkeys : span.keys = List.range' 0 (span.lastKey + 1) := by
    simp [Span.keys, Span.firstKey, hfirst, keyOf]
  rw [hkeys]
  refine orNotFrom_segment hP (by omega) hs ht (Segment.nil _ 0) (fun k _ hk => ?_) fun k hk => ?_
  · have hle : k ≤ span.lastKey := by omega
    rw [Span.positions_upTo hfirst hle]
  · have hlt : span.lastKey < k := by omega
    rw [Span.positions_outside (Or.inr hlt), Finset.empty_sdiff, Finset.union_empty]

theorem orNot_denotes (hP : Chunk.Grade P) (hs : s.Denotes P F) (ht : t.Denotes P G) {bound : Nat}
    {u : IntSet} (hu : s.orNot t bound = .ok u) : ∃ H, u.Denotes P H := by
  rw [orNot] at hu
  cases hcase : lastBelow bound with
  | error e =>
    rw [hcase] at hu
    cases hu
  | ok last? =>
    rw [hcase] at hu
    cases last? with
    | none =>
      cases hu
      exact ⟨F, hs⟩
    | some last =>
      cases hu
      exact ⟨_, orNotFrom_denotes hP hs ht rfl (lastBelow_lt hcase)⟩

end IntSet

end ChunkedSet
