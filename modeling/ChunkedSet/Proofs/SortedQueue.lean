import ChunkedSet.Proofs.SortedArray

/-!
# Sorted lists as queues

What a cursor has left is a sorted list. The lemmas here say what taking an element from either
end and dropping the elements beyond a bound leave of such a list.
-/

namespace ChunkedSet

def Lists (xs : List Nat) (P : Nat → Prop) : Prop := xs.Pairwise (· < ·) ∧ ∀ p, p ∈ xs ↔ P p

namespace Lists

variable {xs ys : List Nat} {P Q : Nat → Prop}

theorem congr (h : Lists xs P) (hPQ : ∀ p, P p ↔ Q p) : Lists xs Q :=
  ⟨h.1, fun p => (h.2 p).trans (hPQ p)⟩

theorem head? (h : Lists xs P) : Least P xs.head? := by
  cases xs with
  | nil => simpa [Least] using h.2
  | cons x xs =>
    refine ⟨(h.2 x).1 List.mem_cons_self, ?_⟩
    intro q hq
    rcases List.mem_cons.1 ((h.2 q).2 hq) with rfl | hin
    · exact Nat.le_refl q
    · exact ((List.pairwise_cons.1 h.1).1 q hin).le

theorem getLast? (h : Lists xs P) : Greatest P xs.getLast? := by
  rcases List.eq_nil_or_concat xs with rfl | ⟨front, x, rfl⟩
  · simpa [Greatest] using h.2
  · rw [List.concat_eq_append] at h ⊢
    rw [List.getLast?_concat]
    refine ⟨(h.2 x).1 (by simp), ?_⟩
    intro q hq
    rcases List.mem_append.1 ((h.2 q).2 hq) with hin | hin
    · exact ((List.pairwise_append.1 h.1).2.2 q hin x (by simp)).le
    · exact (List.mem_singleton.1 hin).le

theorem tail (h : Lists xs P) : Lists xs.tail fun p => P p ∧ ∀ x ∈ xs.head?, x < p := by
  cases xs with
  | nil => simpa [Lists] using h.2
  | cons x xs =>
    obtain ⟨hbehind, hsorted⟩ := List.pairwise_cons.1 h.1
    refine ⟨hsorted, ?_⟩
    intro p
    simp only [← h.2 p, List.tail_cons, List.mem_cons, List.head?_cons, Option.mem_def, Option.some_inj,
      forall_eq']
    constructor
    · intro hp
      exact ⟨Or.inr hp, hbehind p hp⟩
    · rintro ⟨rfl | hp, hlt⟩
      · exact absurd hlt (Nat.lt_irrefl p)
      · exact hp

theorem dropLast (h : Lists xs P) : Lists xs.dropLast fun p => P p ∧ ∀ x ∈ xs.getLast?, p < x := by
  rcases List.eq_nil_or_concat xs with rfl | ⟨front, x, rfl⟩
  · simpa [Lists] using h.2
  · rw [List.concat_eq_append] at h ⊢
    obtain ⟨hsorted, -, hbefore⟩ := List.pairwise_append.1 h.1
    rw [List.dropLast_concat, List.getLast?_concat]
    refine ⟨hsorted, ?_⟩
    intro p
    simp only [← h.2 p, List.mem_append, List.mem_singleton, Option.mem_def, Option.some_inj, forall_eq']
    constructor
    · intro hp
      exact ⟨Or.inl hp, hbefore p hp x (by simp)⟩
    · rintro ⟨hp | rfl, hlt⟩
      · exact hp
      · exact absurd hlt (Nat.lt_irrefl p)

theorem filter (h : Lists xs P) (q : Nat → Bool) :
    Lists (xs.filter q) fun p => P p ∧ q p = true :=
  ⟨h.1.filter q, fun p => by rw [List.mem_filter, h.2 p]⟩

theorem unique (hxs : Lists xs P) (hys : Lists ys P) : xs = ys :=
  hxs.1.eq_of_mem_iff hys.1 fun p => (hxs.2 p).trans (hys.2 p).symm

theorem length_eq_card {S : Finset Nat} (h : Lists xs (· ∈ S)) : xs.length = S.card := by
  have hS : xs.toFinset = S := by
    ext p
    rw [List.mem_toFinset, h.2]
  rw [← hS, List.toFinset_card_of_nodup h.1.nodup]

end Lists

theorem length_le_of_lt {xs : List Nat} {n : Nat} (hxs : xs.Pairwise (· < ·))
    (hlt : ∀ p ∈ xs, p < n) : xs.length ≤ n := by
  have hsub : xs.toFinset ⊆ Finset.range n := by
    intro p hp
    exact Finset.mem_range.2 (hlt p (List.mem_toFinset.1 hp))
  have hcard := Finset.card_le_card hsub
  rwa [List.toFinset_card_of_nodup hxs.nodup, Finset.card_range] at hcard

/-! Elements beyond a bound. -/

theorem filter_eq_dropWhile {R : Nat → Nat → Prop} {xs : List Nat} {keep drop : Nat → Bool}
    (hxs : xs.Pairwise R) (hkeep : ∀ x y, R x y → keep x = true → keep y = true)
    (hdrop : ∀ x, drop x = !keep x) : xs.filter keep = xs.dropWhile drop := by
  induction xs with
  | nil => rfl
  | cons x xs ih =>
    obtain ⟨hbehind, hsorted⟩ := List.pairwise_cons.1 hxs
    by_cases hx : keep x = true
    · have hall : ∀ y ∈ x :: xs, keep y = true := by
        intro y hy
        rcases List.mem_cons.1 hy with rfl | hy
        · exact hx
        · exact hkeep x y (hbehind y hy) hx
      rw [List.filter_eq_self.2 hall, List.dropWhile_cons_of_neg (by simp [hdrop, hx])]
    · rw [List.filter_cons_of_neg hx, List.dropWhile_cons_of_pos (by simp [hdrop, hx]), ih hsorted]

theorem filter_ge_eq_dropWhile {xs : List Nat} (hxs : xs.Pairwise (· < ·)) (v : Nat) :
    xs.filter (v ≤ ·) = xs.dropWhile (· < v) := by
  refine filter_eq_dropWhile hxs (fun x y hxy hx => ?_) fun x => ?_
  · rw [decide_eq_true_eq] at *
    omega
  · simp only [← decide_not, Nat.not_le]

theorem filter_le_eq_dropWhile {xs : List Nat} (hxs : xs.Pairwise (· < ·)) (v : Nat) :
    xs.filter (· ≤ v) = (xs.reverse.dropWhile (v < ·)).reverse := by
  have hdrop : xs.reverse.filter (· ≤ v) = xs.reverse.dropWhile (v < ·) := by
    refine filter_eq_dropWhile (List.pairwise_reverse.2 hxs) (fun x y hxy hx => ?_) fun x => ?_
    · rw [decide_eq_true_eq] at *
      omega
    · simp only [← decide_not, Nat.not_le]
  rw [← hdrop, List.filter_reverse, List.reverse_reverse]

section Leading

variable {α : Type} {R : α → α → Prop} {p : α → Bool} {xs : List α}

theorem filter_append_filter_not (hxs : xs.Pairwise R) (hp : ∀ x y, R x y → p y = true → p x = true) :
    xs.filter p ++ xs.filter (!p ·) = xs := by
  induction xs with
  | nil => rfl
  | cons x xs ih =>
    obtain ⟨hbehind, hsorted⟩ := List.pairwise_cons.1 hxs
    by_cases hx : p x = true
    · simp [hx, ih hsorted]
    · have hnone : xs.filter p = [] :=
        List.filter_eq_nil_iff.2 fun y hy hpy => hx (hp x y (hbehind y hy) hpy)
      have hall := ih hsorted
      rw [hnone, List.nil_append] at hall
      simp [hx, hnone, hall]

theorem take_length_filter (hxs : xs.Pairwise R) (hp : ∀ x y, R x y → p y = true → p x = true) :
    xs.take (xs.filter p).length = xs.filter p := by
  have h := congrArg (List.take (xs.filter p).length) (filter_append_filter_not hxs hp)
  rw [List.take_left] at h
  exact h.symm

theorem drop_length_filter (hxs : xs.Pairwise R) (hp : ∀ x y, R x y → p y = true → p x = true) :
    xs.drop (xs.filter p).length = xs.filter (!p ·) := by
  have h := congrArg (List.drop (xs.filter p).length) (filter_append_filter_not hxs hp)
  rw [List.drop_left] at h
  exact h.symm

end Leading

/-! Searching a part of an array. -/

theorem partitionPointIn_ge {α : Type} (p : α → Bool) (values : Array α) (lo hi : Nat) :
    lo ≤ partitionPointIn p values lo hi :=
  partitionPointBetween_ge _ _ _ _ _

theorem partitionPointIn_le {α : Type} (p : α → Bool) (values : Array α) {lo hi : Nat} (h : lo ≤ hi) :
    partitionPointIn p values lo hi ≤ hi :=
  partitionPointBetween_le _ _ _ h

theorem partitionPointIn_splits {α : Type} {R : α → α → Prop} {p : α → Bool} {values : Array α}
    (hsorted : values.toList.Pairwise R) (hp : ∀ x y, R x y → p y = true → p x = true)
    {lo hi i : Nat} {x : α} (hhi : hi ≤ values.size) (hx : values[i]? = some x) (hlo : lo ≤ i)
    (hi' : i < hi) : p x = true ↔ i < partitionPointIn p values lo hi := by
  have h := partitionPointBetween_splits hhi (Nat.le_refl _) (leading_of_pairwise hsorted hp lo hi) hx
  constructor
  · intro hpx
    by_contra hge
    simp [h.2 (Nat.not_lt.1 hge) hi'] at hpx
  · exact h.1 hlo

/-! A part of an array. -/

/-- The list stands in the array at the indices from `lo` up to, not including, `hi`. -/
def Spans {α : Type} (values : Array α) (lo hi : Nat) (xs : List α) : Prop :=
  ∃ front back, values.toList = front ++ xs ++ back ∧ front.length = lo ∧ lo + xs.length = hi

namespace Spans

variable {α : Type} {values : Array α} {lo hi : Nat} {xs : List α}

theorem all (values : Array α) : Spans values 0 values.size values.toList :=
  ⟨[], [], by simp⟩

theorem sublist (h : Spans values lo hi xs) : xs.Sublist values.toList := by
  obtain ⟨front, back, hvalues, -⟩ := h
  rw [hvalues]
  exact (List.sublist_append_right front xs).trans (List.sublist_append_left _ back)

theorem stop_eq (h : Spans values lo hi xs) : hi = lo + xs.length := by
  obtain ⟨-, -, -, -, hhi⟩ := h
  exact hhi.symm

theorem stop_le (h : Spans values lo hi xs) : hi ≤ values.size := by
  obtain ⟨front, back, hvalues, rfl, rfl⟩ := h
  rw [← Array.length_toList, hvalues]
  simp

theorem getElem? (h : Spans values lo hi xs) {i : Nat} (hi' : i < xs.length) :
    values[lo + i]? = xs[i]? := by
  obtain ⟨front, back, hvalues, rfl, -⟩ := h
  rw [← Array.getElem?_toList, hvalues, List.append_assoc, List.getElem?_append_right (by omega),
    Nat.add_sub_cancel_left, List.getElem?_append_left hi']

theorem drop (h : Spans values lo hi xs) {n : Nat} (hn : n ≤ xs.length) :
    Spans values (lo + n) hi (xs.drop n) := by
  obtain ⟨front, back, hvalues, rfl, rfl⟩ := h
  refine ⟨front ++ xs.take n, back, ?_, ?_, ?_⟩
  · rw [List.append_assoc front, List.take_append_drop, hvalues]
  · simp [hn]
  · rw [List.length_drop]
    omega

theorem take (h : Spans values lo hi xs) {n : Nat} (hn : n ≤ xs.length) :
    Spans values lo (lo + n) (xs.take n) := by
  obtain ⟨front, back, hvalues, rfl, rfl⟩ := h
  refine ⟨front, xs.drop n ++ back, ?_, rfl, ?_⟩
  · rw [← List.append_assoc, List.append_assoc front, List.take_append_drop, hvalues]
  · rw [List.length_take, Nat.min_eq_left hn]

theorem toList_extract (h : Spans values lo hi xs) : (values.extract lo hi).toList = xs := by
  obtain ⟨front, back, hvalues, rfl, rfl⟩ := h
  rw [Array.toList_extract, hvalues]
  simp

theorem partitionPointIn_eq (h : Spans values lo hi xs) {R : α → α → Prop} {p : α → Bool}
    (hsorted : values.toList.Pairwise R) (hp : ∀ x y, R x y → p y = true → p x = true) :
    partitionPointIn p values lo hi = lo + (xs.filter p).length := by
  have hstop := h.stop_eq
  have hge := partitionPointIn_ge p values lo hi
  have hle := partitionPointIn_le p values (h.stop_eq ▸ Nat.le_add_right lo xs.length : lo ≤ hi)
  have hsplit : ∀ i x, xs[i]? = some x →
      p x = decide (i < partitionPointIn p values lo hi - lo) := by
    intro i x hx
    have hi' : i < xs.length := (List.getElem?_eq_some_iff.1 hx).1
    have hget := (h.getElem? hi').trans hx
    have hiff := partitionPointIn_splits hsorted hp h.stop_le hget (Nat.le_add_right _ i) (by omega)
    rw [Bool.eq_iff_iff, decide_eq_true_eq, hiff]
    omega
  have hlength := congrArg List.length (take_eq_filter hsplit)
  rw [List.length_take] at hlength
  omega

end Spans

/-! Steps that take elements one by one. -/

/-- The step takes the first element of what its argument holds. -/
def Pops {σ : Type} (step : σ → Option Nat × σ) (Holds : σ → List Nat → Prop) : Prop :=
  ∀ c xs, Holds c xs → (step c).1 = xs.head? ∧ Holds (step c).2 xs.tail

end ChunkedSet
