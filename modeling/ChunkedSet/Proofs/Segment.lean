import ChunkedSet.IntSet.Basic
import ChunkedSet.Proofs.SortedArray

/-!
# Lists of keyed elements

A list of elements in the order of their keys represents an assignment of sets to keys. Operations
on sets split such lists at a key, replace the element of a key and append elements for greater
keys; each of these is a lemma about segments.
-/

namespace ChunkedSet

/-! Elements of arrays changed in place, put in and taken out. -/

theorem updateAt_spec {α β : Type} {xs : Array α} {A B : List α} {x : α}
    (hxs : xs.toList = A ++ x :: B) (blank : α) (missing : β) (f : α → α × β) :
    (updateAt xs A.length blank missing f).1.toList = A ++ (f x).1 :: B ∧
      (updateAt xs A.length blank missing f).2 = (f x).2 := by
  have hsize : xs.size = A.length + (B.length + 1) := by
    rw [← Array.length_toList, hxs, List.length_append, List.length_cons]
  have hlt : A.length < xs.size := by omega
  have hget : xs[A.length] = x := by
    rw [← Array.getElem_toList]
    simp [hxs]
  rw [updateAt, dif_pos hlt]
  simp [Array.swapAt, hget, hxs]

theorem insertIdx_spec {α : Type} {xs : Array α} {A B : List α} (hxs : xs.toList = A ++ B) (x : α) :
    (xs.insertIdxIfInBounds A.length x).toList = A ++ x :: B := by
  have hle : A.length ≤ xs.size := by
    rw [← Array.length_toList, hxs, List.length_append]
    exact Nat.le_add_right _ _
  rw [toList_insertIdxIfInBounds x hle, hxs, List.take_left, List.drop_left]

theorem eraseIdx_spec {α : Type} {xs : Array α} {A B : List α} {x : α}
    (hxs : xs.toList = A ++ x :: B) : (xs.eraseIdxIfInBounds A.length).toList = A ++ B := by
  have hlt : A.length < xs.size := by
    rw [← Array.length_toList, hxs, List.length_append, List.length_cons]
    omega
  rw [toList_eraseIdxIfInBounds hlt, hxs, List.take_left, List.drop_append]
  simp

/-- The elements for the keys from `a` up to, not including, `b`. They are in order, each stands
for the set that `F` assigns to its key, and keys without an element are assigned nothing. -/
structure Segment {α : Type} (key : α → Nat) (Stands : α → Finset Nat → Prop)
    (F : Nat → Finset Nat) (a b : Nat) (xs : List α) : Prop where
  sorted : xs.Pairwise fun x y => key x < key y
  element : ∀ x ∈ xs, a ≤ key x ∧ key x < b ∧ Stands x (F (key x))
  absent : ∀ k, a ≤ k → k < b → (∀ x ∈ xs, key x ≠ k) → F k = ∅

namespace Segment

variable {α : Type} {key : α → Nat} {Stands : α → Finset Nat → Prop} {F G : Nat → Finset Nat}
  {a b c k : Nat} {x : α} {xs ys : List α}

theorem nil_iff : Segment key Stands F a b [] ↔ ∀ k, a ≤ k → k < b → F k = ∅ := by
  constructor
  · intro h k hak hkb
    exact h.absent k hak hkb fun x hx => absurd hx List.not_mem_nil
  · intro h
    exact ⟨List.Pairwise.nil, fun x hx => absurd hx List.not_mem_nil, fun k hak hkb _ => h k hak hkb⟩

theorem nil (F : Nat → Finset Nat) (a : Nat) : Segment key Stands F a a [] :=
  nil_iff.2 fun _ hak hka => absurd hka (Nat.not_lt.2 hak)

theorem cons_iff : Segment key Stands F a b (x :: xs) ↔
    (a ≤ key x ∧ key x < b ∧ Stands x (F (key x))) ∧ (∀ k, a ≤ k → k < key x → F k = ∅) ∧
      Segment key Stands F (key x + 1) b xs := by
  constructor
  · intro h
    have hcons := List.pairwise_cons.1 h.sorted
    have hx := h.element x List.mem_cons_self
    refine ⟨hx, fun k hak hkx => ?_, hcons.2, fun y hy => ?_, fun k hxk hkb hne => ?_⟩
    · refine h.absent k hak (hkx.trans hx.2.1) fun y hy => ?_
      rcases List.mem_cons.1 hy with rfl | hy
      · exact hkx.ne'
      · exact (hkx.trans (hcons.1 y hy)).ne'
    · have hy' := h.element y (List.mem_cons_of_mem x hy)
      exact ⟨hcons.1 y hy, hy'.2⟩
    · refine h.absent k (by omega) hkb fun y hy => ?_
      rcases List.mem_cons.1 hy with rfl | hy
      · omega
      · exact hne y hy
  · intro h
    obtain ⟨hx, hbefore, hrest⟩ := h
    refine ⟨List.pairwise_cons.2 ⟨fun y hy => (hrest.element y hy).1, hrest.sorted⟩, fun y hy => ?_,
      fun k hak hkb hne => ?_⟩
    · rcases List.mem_cons.1 hy with rfl | hy
      · exact hx
      · have hy' := hrest.element y hy
        exact ⟨by omega, hy'.2⟩
    · have hkx := hne x List.mem_cons_self
      rcases Nat.lt_or_gt_of_ne hkx with hlt | hgt
      · exact hrest.absent k hlt hkb fun y hy => hne y (List.mem_cons_of_mem x hy)
      · exact hbefore k hak hgt

theorem congr (h : Segment key Stands F a b xs) (hFG : ∀ k, a ≤ k → k < b → F k = G k) :
    Segment key Stands G a b xs := by
  refine ⟨h.sorted, fun x hx => ?_, fun k hak hkb hne => ?_⟩
  · have hx' := h.element x hx
    rw [← hFG _ hx'.1 hx'.2.1]
    exact hx'
  · rw [← hFG k hak hkb]
    exact h.absent k hak hkb hne

theorem imp {Stands' : α → Finset Nat → Prop} (h : Segment key Stands F a b xs)
    (himp : ∀ x ∈ xs, ∀ S, Stands x S → Stands' x S) : Segment key Stands' F a b xs :=
  ⟨h.sorted, fun x hx => ⟨(h.element x hx).1, (h.element x hx).2.1,
    himp x hx _ (h.element x hx).2.2⟩, h.absent⟩

theorem append (h : Segment key Stands F a b xs) (h' : Segment key Stands F b c ys) (hab : a ≤ b)
    (hbc : b ≤ c) : Segment key Stands F a c (xs ++ ys) := by
  refine ⟨List.pairwise_append.2 ⟨h.sorted, h'.sorted, fun x hx y hy => ?_⟩, fun x hx => ?_,
    fun k hak hkc hne => ?_⟩
  · exact lt_of_lt_of_le (h.element x hx).2.1 (h'.element y hy).1
  · rcases List.mem_append.1 hx with hx | hx
    · have hx' := h.element x hx
      exact ⟨hx'.1, by omega, hx'.2.2⟩
    · have hx' := h'.element x hx
      exact ⟨by omega, hx'.2⟩
  · rcases Nat.lt_or_ge k b with hkb | hbk
    · exact h.absent k hak hkb fun x hx => hne x (List.mem_append_left ys hx)
    · exact h'.absent k hbk hkc fun x hx => hne x (List.mem_append_right xs hx)

theorem singleton (hx : Stands x (F (key x))) : Segment key Stands F (key x) (key x + 1) [x] :=
  cons_iff.2 ⟨⟨Nat.le_refl _, Nat.lt_succ_self _, hx⟩,
    fun _ hxk hkx => absurd hkx (Nat.not_lt.2 hxk), nil F _⟩

theorem raise (h : Segment key Stands F a b xs) (hac : a ≤ c) (hxs : ∀ x ∈ xs, c ≤ key x) :
    Segment key Stands F c b xs :=
  ⟨h.sorted, fun x hx => ⟨hxs x hx, (h.element x hx).2⟩,
    fun k hck hkb hne => h.absent k (hac.trans hck) hkb hne⟩

theorem lower (h : Segment key Stands F b c xs) (hab : a ≤ b) (hnone : ∀ k, a ≤ k → k < b → F k = ∅) :
    Segment key Stands F a c xs := by
  refine ⟨h.sorted, fun x hx => ?_, fun k hak hkc hne => ?_⟩
  · have hx' := h.element x hx
    exact ⟨hab.trans hx'.1, hx'.2⟩
  · rcases Nat.lt_or_ge k b with hkb | hbk
    · exact hnone k hak hkb
    · exact h.absent k hbk hkc hne

theorem extend (h : Segment key Stands F a b xs) (hab : a ≤ b) (hbc : b ≤ c)
    (hnone : ∀ k, b ≤ k → k < c → F k = ∅) : Segment key Stands F a c xs := by
  have happend := h.append (nil_iff.2 hnone) hab hbc
  rwa [List.append_nil] at happend

theorem filter_lt (h : Segment key Stands F a c xs) (hbc : b ≤ c) :
    Segment key Stands F a b (xs.filter (key · < b)) := by
  refine ⟨h.sorted.filter _, fun x hx => ?_, fun k hak hkb hne => ?_⟩
  · have hx' := List.mem_filter.1 hx
    exact ⟨(h.element x hx'.1).1, of_decide_eq_true hx'.2, (h.element x hx'.1).2.2⟩
  · refine h.absent k hak (hkb.trans_le hbc) fun x hx hxk => ?_
    exact hne x (List.mem_filter.2 ⟨hx, decide_eq_true (hxk ▸ hkb)⟩) hxk

theorem filter_ge (h : Segment key Stands F a c xs) (hab : a ≤ b) :
    Segment key Stands F b c (xs.filter (b ≤ key ·)) := by
  refine ⟨h.sorted.filter _, fun x hx => ?_, fun k hbk hkc hne => ?_⟩
  · have hx' := List.mem_filter.1 hx
    exact ⟨of_decide_eq_true hx'.2, (h.element x hx'.1).2⟩
  · refine h.absent k (hab.trans hbk) hkc fun x hx hxk => ?_
    exact hne x (List.mem_filter.2 ⟨hx, decide_eq_true (hxk ▸ hbk)⟩) hxk

theorem eq_parts (h : Segment key Stands F a b xs) (k : Nat) :
    (∃ x, key x = k ∧ xs = xs.filter (key · < k) ++ x :: xs.filter (k < key ·)) ∨
      (∀ x ∈ xs, key x ≠ k) ∧ xs = xs.filter (key · < k) ++ xs.filter (k < key ·) := by
  induction xs generalizing a with
  | nil => exact Or.inr ⟨fun x hx => absurd hx List.not_mem_nil, rfl⟩
  | cons y rest ih =>
    obtain ⟨hy, -, hrest⟩ := cons_iff.1 h
    have hbehind : ∀ x ∈ rest, key y < key x := fun x hx => (hrest.element x hx).1
    rcases Nat.lt_trichotomy (key y) k with hlt | heq | hgt
    · have hlow : (y :: rest).filter (key · < k) = y :: rest.filter (key · < k) :=
        List.filter_cons_of_pos (decide_eq_true hlt)
      have hhigh : (y :: rest).filter (k < key ·) = rest.filter (k < key ·) :=
        List.filter_cons_of_neg (by simpa using hlt.le)
      rw [hlow, hhigh]
      rcases ih hrest with ⟨x, hx, hparts⟩ | ⟨hne, hparts⟩
      · exact Or.inl ⟨x, hx, congrArg (y :: ·) hparts⟩
      · refine Or.inr ⟨fun x hx => ?_, congrArg (y :: ·) hparts⟩
        rcases List.mem_cons.1 hx with rfl | hx
        · exact hlt.ne
        · exact hne x hx
    · have hnone : rest.filter (key · < k) = [] := List.filter_eq_nil_iff.2 fun x hx => by
        have hlt := hbehind x hx
        simp only [decide_eq_true_eq]
        omega
      have hall : rest.filter (k < key ·) = rest := List.filter_eq_self.2 fun x hx =>
        decide_eq_true (heq ▸ hbehind x hx)
      refine Or.inl ⟨y, heq, ?_⟩
      rw [List.filter_cons_of_neg (by simp [heq]), List.filter_cons_of_neg (by simp [heq]), hnone,
        hall, List.nil_append]
    · have hnone : rest.filter (key · < k) = [] := List.filter_eq_nil_iff.2 fun x hx => by
        have hlt := hbehind x hx
        simp only [decide_eq_true_eq]
        omega
      have hall : rest.filter (k < key ·) = rest := List.filter_eq_self.2 fun x hx =>
        decide_eq_true (hgt.trans (hbehind x hx))
      have hlow : (y :: rest).filter (key · < k) = rest.filter (key · < k) :=
        List.filter_cons_of_neg (by simpa using hgt.le)
      have hhigh : (y :: rest).filter (k < key ·) = y :: rest.filter (k < key ·) :=
        List.filter_cons_of_pos (decide_eq_true hgt)
      refine Or.inr ⟨fun x hx => ?_, ?_⟩
      · rcases List.mem_cons.1 hx with rfl | hx
        · exact hgt.ne'
        · exact (hgt.trans (hbehind x hx)).ne'
      · rw [hlow, hhigh, hnone, hall, List.nil_append]

theorem push (h : Segment key Stands F a b xs) (hab : a ≤ b) (hbx : b ≤ key x)
    (hnone : ∀ k, b ≤ k → k < key x → F k = ∅) (hx : Stands x (F (key x))) :
    Segment key Stands F a (key x + 1) (xs ++ [x]) :=
  (h.extend hab hbx hnone).append (singleton hx) (hab.trans hbx) (Nat.le_succ _)

theorem put (h : Segment key Stands F a b xs) (hak : a ≤ k) (hkb : k < b) (hxk : key x = k)
    (hFG : ∀ i, i ≠ k → G i = F i) (hx : Stands x (G k)) :
    Segment key Stands G a b (xs.filter (key · < k) ++ x :: xs.filter (k < key ·)) := by
  subst hxk
  have hleft := (h.filter_lt hkb.le).congr fun i _ hi => (hFG i hi.ne).symm
  have hright := (h.filter_ge (b := key x + 1) (by omega)).congr fun i hi _ =>
    (hFG i (Nat.ne_of_gt hi)).symm
  exact hleft.append ((singleton hx).append hright (Nat.le_succ _) hkb) hak hkb.le

theorem drop (h : Segment key Stands F a b xs) (hak : a ≤ k) (hkb : k < b)
    (hFG : ∀ i, i ≠ k → G i = F i) (hk : G k = ∅) :
    Segment key Stands G a b (xs.filter (key · < k) ++ xs.filter (k < key ·)) := by
  have hleft := (h.filter_lt hkb.le).congr fun i _ hi => (hFG i hi.ne).symm
  have hright := (h.filter_ge (b := k + 1) (by omega)).congr fun i hi _ =>
    (hFG i (Nat.ne_of_gt hi)).symm
  refine hleft.append (hright.lower (Nat.le_succ k) fun i hki hik => ?_) hak hkb.le
  rw [Nat.le_antisymm (Nat.le_of_lt_succ hik) hki, hk]

theorem map {β : Type} {key' : β → Nat} {Stands' : β → Finset Nat → Prop} {g : α → β}
    (h : Segment key Stands F a b xs)
    (hg : ∀ x ∈ xs, key' (g x) = key x ∧ Stands' (g x) (G (key x)))
    (hFG : ∀ k, a ≤ k → k < b → F k = ∅ → G k = ∅) :
    Segment key' Stands' G a b (xs.map g) := by
  refine ⟨List.pairwise_map.2 (h.sorted.imp_of_mem fun hx hy hlt => ?_), fun y hy => ?_,
    fun k hak hkb hne => ?_⟩
  · rwa [(hg _ hx).1, (hg _ hy).1]
  · obtain ⟨x, hx, rfl⟩ := List.mem_map.1 hy
    have hx' := h.element x hx
    rw [(hg x hx).1]
    exact ⟨hx'.1, hx'.2.1, (hg x hx).2⟩
  · refine hFG k hak hkb (h.absent k hak hkb fun x hx hkey => ?_)
    exact hne (g x) (List.mem_map_of_mem hx) ((hg x hx).1.trans hkey)

theorem filter {Stands' : α → Finset Nat → Prop} {keep : α → Bool}
    (h : Segment key Stands F a b xs)
    (hkeep : ∀ x ∈ xs, keep x = true → Stands' x (F (key x)))
    (hdrop : ∀ x ∈ xs, keep x = false → F (key x) = ∅) :
    Segment key Stands' F a b (xs.filter keep) := by
  refine ⟨h.sorted.filter _, fun x hx => ?_, fun k hak hkb hne => ?_⟩
  · obtain ⟨hx, hk⟩ := List.mem_filter.1 hx
    exact ⟨(h.element x hx).1, (h.element x hx).2.1, hkeep x hx hk⟩
  · by_cases hex : ∃ x ∈ xs, key x = k
    · obtain ⟨x, hx, rfl⟩ := hex
      refine hdrop x hx (Bool.eq_false_iff.2 fun hk => ?_)
      exact hne x (List.mem_filter.2 ⟨hx, hk⟩) rfl
    · exact h.absent k hak hkb fun x hx hkey => hex ⟨x, hx, hkey⟩

/-! Arrays of elements are searched for a key. -/

variable {entries : Array α}

theorem partitionPoint_lt (h : Segment key Stands F a b entries.toList) (k : Nat) :
    partitionPoint (key · < k) entries = (entries.toList.filter (key · < k)).length :=
  partitionPoint_eq_length h.sorted fun _ _ hlt hy =>
    decide_eq_true (hlt.trans (of_decide_eq_true hy))

theorem take_partitionPoint_lt (h : Segment key Stands F a b entries.toList) (k : Nat) :
    entries.toList.take (partitionPoint (key · < k) entries) =
      entries.toList.filter (key · < k) :=
  take_partitionPoint h.sorted fun _ _ hlt hy =>
    decide_eq_true (hlt.trans (of_decide_eq_true hy))

/-- What stands at the place of a key: its element, or else one of another key or none. -/
theorem getElem?_place (h : Segment key Stands F a b entries.toList) (k : Nat) :
    (∃ x, key x = k ∧ entries[partitionPoint (key · < k) entries]? = some x ∧
      entries.toList =
        entries.toList.filter (key · < k) ++ x :: entries.toList.filter (k < key ·)) ∨
    (∀ x, entries[partitionPoint (key · < k) entries]? = some x → key x ≠ k) ∧
      (∀ x ∈ entries.toList, key x ≠ k) ∧
      entries.toList =
        entries.toList.filter (key · < k) ++ entries.toList.filter (k < key ·) := by
  rw [h.partitionPoint_lt, ← Array.getElem?_toList]
  rcases h.eq_parts k with ⟨x, hx, hparts⟩ | ⟨hne, hparts⟩
  · refine Or.inl ⟨x, hx, ?_, hparts⟩
    have hget : (entries.toList.filter (key · < k) ++ x :: entries.toList.filter (k < key ·))[
        (entries.toList.filter (key · < k)).length]? = some x := by
      rw [List.getElem?_append_right (Nat.le_refl _), Nat.sub_self, List.getElem?_cons_zero]
    rwa [← hparts] at hget
  · exact Or.inr ⟨fun x hx => hne x (List.mem_of_getElem? hx), hne, hparts⟩

theorem extract_front (h : Segment key Stands F a c entries.toList) (hbc : b ≤ c) :
    Segment key Stands F a b
      (entries.extract 0 (partitionPoint (key · < b) entries)).toList := by
  have hlist : (entries.extract 0 (partitionPoint (key · < b) entries)).toList =
      entries.toList.filter (key · < b) := by
    rw [← h.take_partitionPoint_lt]
    simp
  rw [hlist]
  exact h.filter_lt hbc

theorem extract_back (h : Segment key Stands F a c entries.toList) (hab : a ≤ b + 1) :
    Segment key Stands F (b + 1) c
      (entries.extract (partitionPoint (key · ≤ b) entries) entries.size).toList := by
  have hdrop := drop_partitionPoint (p := fun x => decide (key x ≤ b)) h.sorted
    fun _ _ hlt hy => decide_eq_true (hlt.le.trans (of_decide_eq_true hy))
  have hlist : (entries.extract (partitionPoint (key · ≤ b) entries) entries.size).toList =
      entries.toList.filter (b + 1 ≤ key ·) := by
    have hnot : ∀ x, (!decide (key x ≤ b)) = decide (b + 1 ≤ key x) := fun x => by
      rw [Bool.eq_iff_iff, Bool.not_eq_true', decide_eq_false_iff_not, decide_eq_true_eq,
        Nat.not_le, Nat.succ_le_iff]
    simp only [hnot] at hdrop
    rw [← hdrop]
    simp
  rw [hlist]
  exact h.filter_ge hab

theorem extract_window {lo hi : Nat} (h : Segment key Stands F a b entries.toList) (hlo : a ≤ lo)
    (hhi : hi < b) :
    Segment key Stands F lo (hi + 1) (entries.extract (partitionPoint (key · < lo) entries)
      (partitionPoint (key · ≤ hi) entries)).toList := by
  have hdrop := drop_partitionPoint (p := fun x => decide (key x < lo)) h.sorted
    fun _ _ hlt hy => decide_eq_true (hlt.trans (of_decide_eq_true hy))
  have hiff := partitionPoint_iff (p := fun x => decide (key x ≤ hi)) h.sorted
    fun _ _ hlt hy => decide_eq_true (hlt.le.trans (of_decide_eq_true hy))
  have htake : ((entries.toList.drop (partitionPoint (key · < lo) entries)).take
      (partitionPoint (key · ≤ hi) entries - partitionPoint (key · < lo) entries)) =
      (entries.toList.drop (partitionPoint (key · < lo) entries)).filter (key · ≤ hi) :=
    take_eq_filter fun i x hx => by
      rw [List.getElem?_drop] at hx
      rw [hiff _ x hx, decide_eq_decide]
      omega
  have hnot : ∀ x, (!decide (key x < lo)) = decide (lo ≤ key x) := fun x => by
    rw [Bool.eq_iff_iff, Bool.not_eq_true', decide_eq_false_iff_not, decide_eq_true_eq, Nat.not_lt]
  simp only [hnot] at hdrop
  have hlist : (entries.extract (partitionPoint (key · < lo) entries)
      (partitionPoint (key · ≤ hi) entries)).toList =
      (entries.toList.filter (lo ≤ key ·)).filter (key · < hi + 1) := by
    have hlt : ∀ x, decide (key x < hi + 1) = decide (key x ≤ hi) := fun x =>
      decide_eq_decide.2 Nat.lt_succ_iff
    simp only [hlt]
    rw [← hdrop, ← htake]
    simp
  rw [hlist]
  exact (h.filter_ge hlo).filter_lt hhi

def changeOrInsert (key : α → Nat) (entries : Array α) (k : Nat) (blank : α) (f : α → α)
    (new : α) : Array α :=
  let place := partitionPoint (key · < k) entries
  match entries[place]?.map key with
  | some found =>
    if found = k then (updateAt entries place blank () fun x => (f x, ())).1
    else entries.insertIdxIfInBounds place new
  | none => entries.push new

theorem changeOrInsert_segment (h : Segment key Stands F a b entries.toList) (hak : a ≤ k)
    (hkb : k < b) (blank : α) {f : α → α} {new : α} (hFG : ∀ i, i ≠ k → G i = F i)
    (hf : ∀ x, key x = k → Stands x (F k) → key (f x) = k ∧ Stands (f x) (G k))
    (hnew : key new = k ∧ (F k = ∅ → Stands new (G k))) :
    Segment key Stands G a b (changeOrInsert key entries k blank f new).toList := by
  rw [changeOrInsert, h.partitionPoint_lt]
  rcases h.getElem?_place k with ⟨x, hx, hget, hparts⟩ | ⟨hget, hne, hparts⟩
  · have hold := (h.element x (by rw [hparts]; simp)).2.2
    rw [hx] at hold
    obtain ⟨hkey, hden⟩ := hf x hx hold
    have hput := h.put hak hkb hkey hFG hden
    have hupdate := updateAt_spec hparts blank () fun x => (f x, ())
    rw [← hupdate.1] at hput
    rw [← h.partitionPoint_lt, hget, Option.map_some]
    dsimp only
    rw [if_pos hx, h.partitionPoint_lt]
    exact hput
  · have hput := h.put hak hkb hnew.1 hFG (hnew.2 (h.absent k hak hkb hne))
    rw [h.partitionPoint_lt] at hget
    split
    · rename_i found hcase
      obtain ⟨x, hx, rfl⟩ := Option.map_eq_some_iff.1 hcase
      rw [if_neg (hget x hx), insertIdx_spec hparts]
      exact hput
    · rename_i hcase
      have hend : entries.toList.filter (k < key ·) = [] := by
        rw [Option.map_eq_none_iff, ← Array.getElem?_toList, List.getElem?_eq_none_iff] at hcase
        have hlen := congrArg List.length hparts
        rw [List.length_append] at hlen
        exact List.length_eq_zero_iff.1 (by omega)
      rw [hend] at hput hparts
      rw [List.append_nil] at hparts
      rw [Array.toList_push, hparts]
      exact hput

/-! Segments of some assignment. -/

theorem exists_lower (h : ∃ F, Segment key Stands F b c xs) (hab : a ≤ b) :
    ∃ F, Segment key Stands F a c xs := by
  obtain ⟨F, h⟩ := h
  refine ⟨fun k => if k < b then ∅ else F k, ?_⟩
  exact (h.congr fun k hbk _ => (if_neg (Nat.not_lt.2 hbk)).symm).lower hab
    fun k _ hkb => if_pos hkb

theorem exists_cons {S : Finset Nat} (hax : a ≤ key x) (hxb : key x < b) (hx : Stands x S)
    (h : ∃ F, Segment key Stands F (key x + 1) b xs) :
    ∃ F, Segment key Stands F a b (x :: xs) := by
  obtain ⟨F, h⟩ := h
  refine ⟨fun k => if k < key x then ∅ else if k = key x then S else F k, cons_iff.2 ⟨?_, ?_, ?_⟩⟩
  · rw [if_neg (Nat.lt_irrefl _), if_pos rfl]
    exact ⟨hax, hxb, hx⟩
  · exact fun k _ hkx => if_pos hkx
  · refine h.congr fun k hxk _ => ?_
    have hnot : ¬k < key x := by omega
    have hne : k ≠ key x := by omega
    rw [if_neg hnot, if_neg hne]

theorem exists_concat {S : Finset Nat} (h : ∃ F, Segment key Stands F a b xs) (hab : a ≤ b)
    (hbx : b ≤ key x) (hx : Stands x S) : ∃ F, Segment key Stands F a (key x + 1) (xs ++ [x]) := by
  obtain ⟨F, h⟩ := h
  refine ⟨fun k => if k < b then F k else if k = key x then S else ∅, ?_⟩
  have hfront := h.congr (G := fun k => if k < b then F k else if k = key x then S else ∅)
    fun k _ hkb => (if_pos hkb).symm
  refine hfront.push hab hbx (fun k hbk hkx => ?_) ?_
  · rw [if_neg (Nat.not_lt.2 hbk), if_neg hkx.ne]
  · rw [if_neg (Nat.not_lt.2 hbx), if_pos rfl]
    exact hx

theorem exists_extend (h : ∃ F, Segment key Stands F a b xs) (hab : a ≤ b) (hbc : b ≤ c) :
    ∃ F, Segment key Stands F a c xs := by
  obtain ⟨F, h⟩ := h
  refine ⟨fun k => if k < b then F k else ∅, ?_⟩
  exact (h.congr fun k _ hkb => (if_pos hkb).symm).extend hab hbc
    fun k hbk _ => if_neg (Nat.not_lt.2 hbk)

theorem of_concat (h : Segment key Stands F a b (xs ++ [x])) :
    (a ≤ key x ∧ key x < b ∧ Stands x (F (key x))) ∧ Segment key Stands F a (key x) xs := by
  have hsorted := List.pairwise_append.1 h.sorted
  have hbefore : ∀ y ∈ xs, key y < key x := fun y hy =>
    hsorted.2.2 y hy x (List.mem_singleton.2 rfl)
  refine ⟨h.element x (by simp), hsorted.1, fun y hy => ?_, fun k hak hkx hne => ?_⟩
  · have hy' := h.element y (List.mem_append_left _ hy)
    exact ⟨hy'.1, hbefore y hy, hy'.2.2⟩
  · refine h.absent k hak (hkx.trans (h.element x (by simp)).2.1) fun y hy => ?_
    rcases List.mem_append.1 hy with hy | hy
    · exact hne y hy
    · rw [List.mem_singleton.1 hy]
      exact hkx.ne'

end Segment

end ChunkedSet
