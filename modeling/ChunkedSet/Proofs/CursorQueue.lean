import ChunkedSet.Cursor.Queue
import ChunkedSet.Proofs.Bounds
import ChunkedSet.Proofs.CursorSkips

/-!
# Cursors as double-ended queues

A cursor is a queue of the values left, in increasing order, from which steps take and drop at
either end. Every step does to the cursor what it does to the queue, so no session can tell them
apart, and no value is returned twice or by both ends.
-/

namespace ChunkedSet

namespace CursorStep

variable {xs : List Nat} {s : CursorStep}

theorem onQueue_sublist (s : CursorStep) (xs : List Nat) : (s.onQueue xs).2.Sublist xs := by
  cases s with
  | next => exact List.tail_sublist xs
  | nextBack => exact List.dropLast_sublist xs
  | nth n => exact List.drop_sublist _ xs
  | nthBack n => simpa [onQueue] using (List.drop_sublist (n + 1) xs.reverse).reverse
  | advanceTo v => exact List.dropWhile_sublist _
  | advanceBackTo v =>
    have hdrop : (xs.reverse.dropWhile (v < ·)).Sublist xs.reverse := List.dropWhile_sublist _
    simpa [onQueue] using hdrop.reverse

theorem onQueue_perm (hs : s = .next ∨ s = .nextBack) (xs : List Nat) :
    ((s.onQueue xs).1.toList ++ (s.onQueue xs).2).Perm xs := by
  rcases hs with rfl | rfl
  · cases xs with
    | nil => exact .refl _
    | cons x xs => exact .refl _
  · rcases List.eq_nil_or_concat xs with rfl | ⟨xs, x, rfl⟩
    · exact .refl _
    · simpa [onQueue] using (List.perm_append_singleton x xs).symm

theorem onQueue_subperm (s : CursorStep) (xs : List Nat) :
    ((s.onQueue xs).1.toList ++ (s.onQueue xs).2).Subperm xs := by
  cases s with
  | next => exact (onQueue_perm (Or.inl rfl) xs).subperm
  | nextBack => exact (onQueue_perm (Or.inr rfl) xs).subperm
  | nth n =>
    rw [onQueue, ← List.drop_eq_getElem?_toList_append]
    exact (List.drop_sublist n xs).subperm
  | nthBack n =>
    have hdrop := ((List.drop_sublist n xs.reverse).subperm).trans (List.reverse_perm xs).subperm
    rw [List.drop_eq_getElem?_toList_append] at hdrop
    exact ((List.reverse_perm _).append_left _).subperm.trans hdrop
  | advanceTo v => exact (onQueue_sublist (.advanceTo v) xs).subperm
  | advanceBackTo v => exact (onQueue_sublist (.advanceBackTo v) xs).subperm

theorem run_perm {steps : List CursorStep} (hsteps : ∀ s ∈ steps, s = .next ∨ s = .nextBack)
    (xs : List Nat) : ((run onQueue steps xs).1 ++ (run onQueue steps xs).2).Perm xs := by
  induction steps generalizing xs with
  | nil => exact .refl _
  | cons s steps ih =>
    have hrest := ih (fun t ht => hsteps t (List.mem_cons_of_mem s ht)) (s.onQueue xs).2
    rw [run_cons, List.append_assoc]
    exact (hrest.append_left _).trans (onQueue_perm (hsteps s List.mem_cons_self) xs)

theorem run_subperm (steps : List CursorStep) (xs : List Nat) :
    ((run onQueue steps xs).1 ++ (run onQueue steps xs).2).Subperm xs := by
  induction steps generalizing xs with
  | nil => exact .refl _
  | cons s steps ih =>
    rw [run_cons, List.append_assoc]
    exact ((List.subperm_append_left _).2 (ih (s.onQueue xs).2)).trans (onQueue_subperm s xs)

end CursorStep

namespace Cursor

structure Agrees (c : Cursor) (xs : List Nat) : Prop where
  peek : c.peek? = xs.head?
  peekBack : c.peekBack? = xs.getLast?
  size : c.size = xs.length
  sizeHint : c.sizeHint = (xs.length, some xs.length)
  fold : ∀ (β : Type) (f : β → Nat → β) (acc : β), c.fold f acc = xs.foldl f acc
  foldBack : ∀ (β : Type) (f : β → Nat → β) (acc : β), c.foldBack f acc = xs.reverse.foldl f acc

/-- The cursor cannot be told from the queue by any session. The values taken from both ends and
those left are different values of the queue, and all of them unless some are skipped. -/
structure RefinesQueue (c : Cursor) (xs : List Nat) : Prop where
  answers : ∀ commands, (CursorCommand.run CursorStep.onCursor commands [c]).1 =
    (CursorCommand.run CursorStep.onQueue commands [xs]).1
  agrees : ∀ commands, List.Forall₂ Agrees (CursorCommand.run CursorStep.onCursor commands [c]).2
    (CursorCommand.run CursorStep.onQueue commands [xs]).2
  taken : ∀ steps, ∃ left, Agrees (CursorStep.run CursorStep.onCursor steps c).2 left ∧
    ((CursorStep.run CursorStep.onCursor steps c).1 ++ left).Nodup ∧
    ((CursorStep.run CursorStep.onCursor steps c).1 ++ left) ⊆ xs ∧
    ((∀ s ∈ steps, s = .next ∨ s = .nextBack) →
      ((CursorStep.run CursorStep.onCursor steps c).1 ++ left).Perm xs)

structure Queued (c : Cursor) (xs : List Nat) : Prop where
  holds : c.Holds xs
  sorted : xs.Pairwise (· < ·)
  lt : ∀ v ∈ xs, v < domainSize

variable {c : Cursor} {xs : List Nat}

theorem Queued.agrees (h : c.Queued xs) : c.Agrees xs where
  peek := h.holds.peek?
  peekBack := h.holds.peekBack?
  size := h.holds.size
  sizeHint := by
    have hlimit : xs.length ≤ sizeLimit := (length_le_of_lt h.sorted h.lt).trans (by decide)
    rw [Cursor.sizeHint, h.holds.size, if_pos hlimit]
  fold := fun _ f acc => h.holds.fold f acc
  foldBack := fun _ f acc => h.holds.foldBack f acc

theorem Queued.step (h : c.Queued xs) (s : CursorStep) :
    (s.onCursor c).1 = (s.onQueue xs).1 ∧ (s.onCursor c).2.Queued (s.onQueue xs).2 := by
  have hsub := s.onQueue_sublist xs
  have hstep : (s.onCursor c).1 = (s.onQueue xs).1 ∧ (s.onCursor c).2.Holds (s.onQueue xs).2 := by
    cases s with
    | next => exact h.holds.next
    | nextBack => exact h.holds.nextBack
    | nth n => exact h.holds.nth n
    | nthBack n => exact h.holds.nthBack n
    | advanceTo v =>
      have hdrop := h.holds.advanceTo v
      rw [filter_ge_eq_dropWhile h.sorted] at hdrop
      exact ⟨rfl, hdrop⟩
    | advanceBackTo v =>
      have hdrop := h.holds.advanceBackTo v
      rw [filter_le_eq_dropWhile h.sorted] at hdrop
      exact ⟨rfl, hdrop⟩
  exact ⟨hstep.1, hstep.2, h.sorted.sublist hsub, fun v hv => h.lt v (hsub.subset hv)⟩

theorem Queued.run (h : c.Queued xs) (steps : List CursorStep) :
    (CursorStep.run CursorStep.onCursor steps c).1 = (CursorStep.run CursorStep.onQueue steps xs).1 ∧
      (CursorStep.run CursorStep.onCursor steps c).2.Queued
        (CursorStep.run CursorStep.onQueue steps xs).2 := by
  induction steps generalizing c xs with
  | nil => exact ⟨rfl, h⟩
  | cons s steps ih =>
    obtain ⟨hanswer, hstep⟩ := h.step s
    obtain ⟨htaken, hleft⟩ := ih hstep
    rw [CursorStep.run_cons, CursorStep.run_cons, hanswer, htaken]
    exact ⟨rfl, hleft⟩

/-! Sessions. -/

variable {pool : List Cursor} {queues : List (List Nat)}

theorem getElem?_pool (h : List.Forall₂ Queued pool queues) (i : Nat) :
    pool[i]? = none ∧ queues[i]? = none ∨
      ∃ c xs, pool[i]? = some c ∧ queues[i]? = some xs ∧ c.Queued xs := by
  induction h generalizing i with
  | nil => exact Or.inl ⟨rfl, rfl⟩
  | cons hhead _ ih =>
    cases i with
    | zero => exact Or.inr ⟨_, _, rfl, rfl, hhead⟩
    | succ i => simpa using ih i

theorem set_pool (h : List.Forall₂ Queued pool queues) (hc : c.Queued xs) (i : Nat) :
    List.Forall₂ Queued (pool.set i c) (queues.set i xs) := by
  induction h generalizing i with
  | nil => exact .nil
  | cons hhead htail ih =>
    cases i with
    | zero => exact .cons hc htail
    | succ i => exact .cons hhead (ih i)

theorem apply_pool (h : List.Forall₂ Queued pool queues) (command : CursorCommand) :
    (command.apply CursorStep.onCursor pool).1 = (command.apply CursorStep.onQueue queues).1 ∧
      List.Forall₂ Queued (command.apply CursorStep.onCursor pool).2
        (command.apply CursorStep.onQueue queues).2 := by
  cases command with
  | step i s =>
    rcases getElem?_pool h i with ⟨hc, hxs⟩ | ⟨c, xs, hc, hxs, hqueued⟩
    · simpa only [CursorCommand.apply, hc, hxs, true_and] using h
    · simp only [CursorCommand.apply, hc, hxs]
      exact ⟨(hqueued.step s).1, set_pool h (hqueued.step s).2 i⟩
  | clone i =>
    rcases getElem?_pool h i with ⟨hc, hxs⟩ | ⟨c, xs, hc, hxs, hqueued⟩
    · simpa only [CursorCommand.apply, hc, hxs, Option.toList_none, List.append_nil, true_and] using h
    · simp only [CursorCommand.apply, hc, hxs, Option.toList_some, true_and]
      exact List.rel_append h (.cons hqueued .nil)

theorem run_pool (h : List.Forall₂ Queued pool queues) (commands : List CursorCommand) :
    (CursorCommand.run CursorStep.onCursor commands pool).1 =
        (CursorCommand.run CursorStep.onQueue commands queues).1 ∧
      List.Forall₂ Queued (CursorCommand.run CursorStep.onCursor commands pool).2
        (CursorCommand.run CursorStep.onQueue commands queues).2 := by
  induction commands generalizing pool queues with
  | nil => exact ⟨rfl, h⟩
  | cons command commands ih =>
    obtain ⟨hanswer, hpool⟩ := apply_pool h command
    obtain ⟨hanswers, hleft⟩ := ih hpool
    rw [CursorCommand.run_cons, CursorCommand.run_cons, hanswer, hanswers]
    exact ⟨rfl, hleft⟩

theorem Queued.refines (h : c.Queued xs) : c.RefinesQueue xs where
  answers := fun commands => (run_pool (.cons h .nil) commands).1
  agrees := fun commands => (run_pool (.cons h .nil) commands).2.imp fun _ _ hc => hc.agrees
  taken := by
    intro steps
    obtain ⟨htaken, hleft⟩ := h.run steps
    have hsub := CursorStep.run_subperm steps xs
    have hnodup : ((CursorStep.run CursorStep.onQueue steps xs).1 ++
        (CursorStep.run CursorStep.onQueue steps xs).2).Nodup := by
      obtain ⟨list, hperm, hlist⟩ := hsub
      exact hperm.nodup_iff.1 (h.sorted.nodup.sublist hlist)
    rw [htaken]
    exact ⟨_, hleft.agrees, hnodup, hsub.subset, fun hsteps => CursorStep.run_perm hsteps xs⟩

/-! Cursors over a set and over a range. -/

theorem queued_ofSet {s : IntSet} (hs : s.Valid) : (ofSet s).Queued s.toList where
  holds := holds_ofSet hs
  sorted := hs.denotes.pairwise_toList
  lt := fun _ hv => hs.lt_domainSize (hs.denotes.mem_toList.1 hv)

theorem queued_ofRange {s : IntSet} (hs : s.Valid) {range : Bounds} (hrange : range.InDomain) :
    (ofRange s range).Queued (s.toList.filter (· ∈ range)) := by
  have hall := queued_ofSet hs
  have hholds : (ofRange s range).Holds (s.toList.filter (· ∈ range)) := by
    rw [ofRange, Bounds.span?_eq_values?]
    cases hvalues : range.values? with
    | none =>
      have hnone : s.toList.filter (· ∈ range) = [] := by
        rw [List.filter_eq_nil_iff]
        intro v _
        simpa using Bounds.not_mem_of_values? hrange hvalues
      rw [hnone]
      exact holds_empty
    | some span =>
      have hboth := (hall.holds.advanceTo span.first).advanceBackTo span.last
      rw [List.filter_filter] at hboth
      have hfilter : s.toList.filter (· ∈ range) =
          s.toList.filter fun v => decide (v ≤ span.last) && decide (span.first ≤ v) := by
        apply List.filter_congr
        intro v _
        simp [Bounds.mem_iff_of_values? hrange hvalues, and_comm]
      rw [hfilter]
      exact hboth
  exact ⟨hholds, hall.sorted.filter _, fun v hv => hall.lt v (List.mem_of_mem_filter hv)⟩

/-- The cursors over a set and over a range of it are queues of the values, in increasing order. -/
theorem refines_queue {s : IntSet} (hs : s.Valid) {xs : List Nat} (hsorted : xs.Pairwise (· < ·))
    (hmem : ∀ v, v ∈ xs ↔ v ∈ s) : (ofSet s).RefinesQueue xs ∧
      ∀ range : Bounds, range.InDomain →
        (ofRange s range).RefinesQueue (xs.filter (· ∈ range)) := by
  have hlist : Lists s.toList (· ∈ s) :=
    ⟨hs.denotes.pairwise_toList, fun v => hs.denotes.mem_toList⟩
  obtain rfl := hlist.unique ⟨hsorted, hmem⟩
  exact ⟨(queued_ofSet hs).refines, fun range hrange => (queued_ofRange hs hrange).refines⟩

theorem refines_queue_mixed :
    let s : IntSet := ⟨#[⟨0, .array ⟨#[1, 65535]⟩⟩, ⟨7, .runs ⟨#[⟨0, 2⟩, ⟨5, 5⟩]⟩⟩]⟩
    let range : Bounds := ⟨.excluded 1, .included 458754⟩
    s.Valid ∧ range.InDomain ∧
      (ofSet s).RefinesQueue [1, 65535, 458752, 458753, 458754, 458757] ∧
      (ofRange s range).RefinesQueue [65535, 458752, 458753, 458754] := by
  intro s range
  have hs : s.Valid := by decide
  have hrange : range.InDomain := by
    simp [range, Bounds.InDomain, Bound.InDomain, Bound.value?, domainSize]
  have hlist : s.toList = [1, 65535, 458752, 458753, 458754, 458757] := by decide
  have hmem : ∀ v, v ∈ [1, 65535, 458752, 458753, 458754, 458757] ↔ v ∈ s := by
    intro v
    rw [← hlist, hs.denotes.mem_toList]
  have hfilter : [1, 65535, 458752, 458753, 458754, 458757].filter (· ∈ range) =
      [65535, 458752, 458753, 458754] := by decide
  have h := refines_queue hs (by decide) hmem
  exact ⟨hs, hrange, h.1, hfilter ▸ h.2 range hrange⟩

end Cursor

end ChunkedSet
