import ChunkedSet.IntSet.Algebra

/-!
# Merges by key as lists of pairs

A fold over the merge of two lists of entries is a fold over one list of pairs, which mirrors when
the operands change places.
-/

namespace ChunkedSet.Pairing

def key : Pairing → Nat
  | left e => e.key
  | right e => e.key
  | both e _ => e.key

def swap : Pairing → Pairing
  | left e => right e
  | right e => left e
  | both e f => both f e

/-- Whether the entries of a pair stand in the two lists, under one key if there are two. -/
def From (xs ys : List Entry) : Pairing → Prop
  | left e => e ∈ xs
  | right e => e ∈ ys
  | both e f => e ∈ xs ∧ f ∈ ys ∧ e.key = f.key

def pairs (xs ys : List Entry) : List Pairing :=
  match xs, ys with
  | [], ys => ys.map right
  | xs, [] => xs.map left
  | x :: xs, y :: ys =>
    if x.key < y.key then left x :: pairs xs (y :: ys)
    else if y.key < x.key then right y :: pairs (x :: xs) ys
    else both x y :: pairs xs ys
termination_by xs.length + ys.length

variable {β : Type} {p : Pairing}

@[simp] theorem pairs_nil (xs : List Entry) : pairs xs [] = xs.map left := by
  cases xs <;> simp [pairs]

@[simp] theorem nil_pairs (ys : List Entry) : pairs [] ys = ys.map right := by
  simp [pairs]

theorem fold_eq_foldl (f : β → Pairing → β) (xs ys : List Entry) (out : β) :
    fold f xs ys out = (pairs xs ys).foldl f out := by
  induction xs, ys, out using fold.induct (f := f) with
  | case1 out ys => simp [fold, List.foldl_map]
  | case2 out xs hne =>
    cases xs with
    | nil => exact absurd rfl hne
    | cons x xs => simp [fold, List.foldl_map]
  | case3 out x xs y ys hlt ih => rw [fold, pairs, if_pos hlt, if_pos hlt, ih, List.foldl_cons]
  | case4 out x xs y ys hge hlt ih =>
    rw [fold, pairs, if_neg hge, if_pos hlt, if_neg hge, if_pos hlt, ih, List.foldl_cons]
  | case5 out x xs y ys hge hge' ih =>
    rw [fold, pairs, if_neg hge, if_neg hge', if_neg hge, if_neg hge', ih, List.foldl_cons]

theorem pairs_swap (xs ys : List Entry) : pairs ys xs = (pairs xs ys).map swap := by
  induction xs, ys using pairs.induct with
  | case1 ys => simp [swap]
  | case2 xs hne => simp [swap]
  | case3 x xs y ys hlt ih =>
    have hge : ¬y.key < x.key := Nat.lt_asymm hlt
    rw [pairs, pairs, if_neg hge, if_pos hlt, if_pos hlt, ih, List.map_cons, swap]
  | case4 x xs y ys hge hlt ih =>
    rw [pairs, pairs, if_pos hlt, if_neg hge, if_pos hlt, ih, List.map_cons, swap]
  | case5 x xs y ys hge hge' ih =>
    rw [pairs, pairs, if_neg hge', if_neg hge, if_neg hge, if_neg hge', ih, List.map_cons, swap]

theorem From.mono {xs ys xs' ys' : List Entry} (h : p.From xs ys) (hxs : xs ⊆ xs')
    (hys : ys ⊆ ys') : p.From xs' ys' := by
  cases p with
  | left e => exact hxs h
  | right e => exact hys h
  | both e f => exact ⟨hxs h.1, hys h.2.1, h.2.2⟩

theorem from_of_mem_pairs {xs ys : List Entry} (h : p ∈ pairs xs ys) : p.From xs ys := by
  induction xs, ys using pairs.induct with
  | case1 ys =>
    rw [nil_pairs, List.mem_map] at h
    obtain ⟨y, hy, rfl⟩ := h
    exact hy
  | case2 xs hne =>
    rw [pairs_nil, List.mem_map] at h
    obtain ⟨x, hx, rfl⟩ := h
    exact hx
  | case3 x xs y ys hlt ih =>
    rw [pairs, if_pos hlt, List.mem_cons] at h
    rcases h with rfl | h
    · exact List.mem_cons_self
    · exact (ih h).mono (List.subset_cons_self x xs) (List.Subset.refl _)
  | case4 x xs y ys hge hlt ih =>
    rw [pairs, if_neg hge, if_pos hlt, List.mem_cons] at h
    rcases h with rfl | h
    · exact List.mem_cons_self
    · exact (ih h).mono (List.Subset.refl _) (List.subset_cons_self y ys)
  | case5 x xs y ys hge hge' ih =>
    rw [pairs, if_neg hge, if_neg hge', List.mem_cons] at h
    rcases h with rfl | h
    · exact ⟨List.mem_cons_self, List.mem_cons_self, by omega⟩
    · exact (ih h).mono (List.subset_cons_self x xs) (List.subset_cons_self y ys)

theorem fold_rel {γ : Type} {R : β → γ → Prop} {f : β → Pairing → β} {g : γ → Pairing → γ}
    {xs ys : List Entry} {b : β} {c : γ} (h : R b c)
    (hstep : ∀ p, p.From xs ys → ∀ b c, R b c → R (f b p) (g c p)) :
    R (fold f xs ys b) (fold g xs ys c) := by
  rw [fold_eq_foldl, fold_eq_foldl]
  exact List.foldl_rel h fun p hp b c hbc => hstep p (from_of_mem_pairs hp) b c hbc

theorem fold_swap (f : β → Pairing → β) (xs ys : List Entry) (out : β) :
    fold f ys xs out = fold (fun out p => f out p.swap) xs ys out := by
  rw [fold_eq_foldl, fold_eq_foldl, pairs_swap, List.foldl_map]

end ChunkedSet.Pairing
