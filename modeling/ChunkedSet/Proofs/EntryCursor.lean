import ChunkedSet.Cursor.Basic
import ChunkedSet.Proofs.ChunkCursor
import ChunkedSet.Proofs.ChunkUpdate
import ChunkedSet.Proofs.RunCursor

/-!
# Cursors over one entry

The three kinds of cursors in one: every step acts on the two ends of what is left, whatever the
representation. Steps that drop positions one by one and folds are runs of single steps.
-/

namespace ChunkedSet

namespace Chunk

variable {c : Chunk}

theorem Valid.lists (h : c.Valid) : Lists c.toList (· ∈ c) := by
  obtain ⟨S, hden⟩ := h.denotes
  have hsort : Lists (S.sort (· ≤ ·)) (· ∈ S) := ⟨S.sortedLT_sort.pairwise, fun p => Finset.mem_sort _⟩
  rw [hden.toList_eq_sort]
  exact hsort.congr fun p => (hden.2 p).symm

theorem Valid.max?_eq (h : c.Valid) : c.max? = c.toList.getLast? := by
  obtain ⟨S, hden⟩ := h.denotes
  exact (max?_greatest hden).unique (h.lists.congr hden.2).getLast?

theorem Valid.min?_eq (h : c.Valid) : c.min? = c.toList.head? := by
  cases c with
  | array a => simp [min?, SortedArray.min?, toList, positions, List.head?_eq_getElem?]
  | block b => exact (BlockCursor.holds_ofBlock b).peek?
  | runs l =>
    have hlist : (runs l).toList = RunList.listed l.toList := RunList.toList_toSorted l
    rw [hlist, min?, RunList.min?, ← Array.getElem?_toList, ← RunList.toList]
    cases l.toList with
    | nil => rfl
    | cons r rest => simp [RunList.listed, Run.size, List.range'_succ]

theorem Valid.toList_ne_nil (h : c.Valid) (hc : c.isEmpty = false) : c.toList ≠ [] := by
  obtain ⟨S, hden⟩ := h.denotes
  obtain ⟨p, hp⟩ := hden.nonempty hc
  exact List.ne_nil_of_mem ((h.lists.2 p).2 ((hden.2 p).2 hp))

end Chunk

namespace ChunkCursor

def Holds : ChunkCursor → List Nat → Prop
  | array c, xs => c.Holds xs
  | block c, xs => c.Holds xs
  | runs c, xs => c.Holds xs

variable {c : ChunkCursor} {xs : List Nat} {p : Nat}

theorem holds_ofChunk {c : Chunk} (h : c.Valid) : (ofChunk c).Holds c.toList := by
  cases c with
  | array a => exact ArrayCursor.holds_ofSorted h
  | block b => exact BlockCursor.holds_ofBlock b
  | runs l => exact RunCursor.holds_ofList h

theorem Holds.sorted (h : c.Holds xs) : xs.Pairwise (· < ·) := by
  cases c with
  | array c => exact ArrayCursor.Holds.sorted h
  | block c => exact BlockCursor.Holds.sorted h
  | runs c => exact RunCursor.Holds.sorted h

theorem Holds.lt (h : c.Holds xs) (hp : p ∈ xs) : p < chunkSize := by
  cases c with
  | array c => exact ArrayCursor.Holds.lt h hp
  | block c => exact BlockCursor.Holds.lt h hp
  | runs c => exact RunCursor.Holds.lt h hp

theorem Holds.length_le (h : c.Holds xs) : xs.length ≤ chunkSize :=
  length_le_of_lt h.sorted fun _ hp => h.lt hp

theorem Holds.size (h : c.Holds xs) : c.size = xs.length := by
  cases c with
  | array c => exact ArrayCursor.Holds.size h
  | block c => exact BlockCursor.Holds.size h
  | runs c => exact RunCursor.Holds.size h

theorem Holds.peek? (h : c.Holds xs) : c.peek? = xs.head? := by
  cases c with
  | array c => exact ArrayCursor.Holds.peek? h
  | block c => exact BlockCursor.Holds.peek? h
  | runs c => exact RunCursor.Holds.peek? h

theorem Holds.peekBack? (h : c.Holds xs) : c.peekBack? = xs.getLast? := by
  cases c with
  | array c => exact ArrayCursor.Holds.peekBack? h
  | block c => exact BlockCursor.Holds.peekBack? h
  | runs c => exact RunCursor.Holds.peekBack? h

theorem Holds.next (h : c.Holds xs) : c.next.1 = xs.head? ∧ c.next.2.Holds xs.tail := by
  cases c with
  | array c => exact ArrayCursor.Holds.next h
  | block c => exact BlockCursor.Holds.next h
  | runs c => exact RunCursor.Holds.next h

theorem Holds.nextBack (h : c.Holds xs) :
    c.nextBack.1 = xs.getLast? ∧ c.nextBack.2.Holds xs.dropLast := by
  cases c with
  | array c => exact ArrayCursor.Holds.nextBack h
  | block c => exact BlockCursor.Holds.nextBack h
  | runs c => exact RunCursor.Holds.nextBack h

theorem Holds.advanceTo (h : c.Holds xs) (hp : p < chunkSize) :
    (c.advanceTo p).Holds (xs.filter (p ≤ ·)) := by
  cases c with
  | array c => exact ArrayCursor.Holds.advanceTo h p
  | block c => exact BlockCursor.Holds.advanceTo h hp
  | runs c => exact RunCursor.Holds.advanceTo h hp

theorem Holds.advanceBackTo (h : c.Holds xs) (p : Nat) :
    (c.advanceBackTo p).Holds (xs.filter (· ≤ p)) := by
  cases c with
  | array c => exact ArrayCursor.Holds.advanceBackTo h p
  | block c => exact BlockCursor.Holds.advanceBackTo h p
  | runs c => exact RunCursor.Holds.advanceBackTo h p

/-! Runs of single steps, from either end. -/

theorem pops_next : Pops next Holds := fun _ _ h => h.next

theorem pops_nextBack : Pops nextBack fun c xs => c.Holds xs.reverse := by
  intro c xs h
  have hback := h.nextBack
  rwa [List.getLast?_reverse, List.dropLast_reverse] at hback

variable {step : ChunkCursor → Option Nat × ChunkCursor} {H : ChunkCursor → List Nat → Prop}

theorem nthByNext_spec (hstep : Pops step H) (n : Nat) (h : H c xs) :
    (nthByNext step n c).1 = xs[n]? ∧ H (nthByNext step n c).2 (xs.drop (n + 1)) := by
  induction n generalizing c xs with
  | zero =>
    rw [nthByNext, ← List.head?_eq_getElem?, List.drop_one]
    exact hstep c xs h
  | succ n ih =>
    obtain ⟨hhead, htail⟩ := hstep c xs h
    rw [nthByNext, ← Prod.mk.eta (p := step c), hhead]
    cases xs with
    | nil => exact ⟨rfl, htail⟩
    | cons x xs => exact ih htail

theorem foldBy_eq {β : Type} (hstep : Pops step H) (f : β → Nat → β) {fuel : Nat} {acc : β}
    (h : H c xs) (hfuel : xs.length ≤ fuel) : foldBy step f fuel c acc = xs.foldl f acc := by
  induction fuel generalizing c xs acc with
  | zero => rw [foldBy, List.length_eq_zero_iff.1 (Nat.le_zero.1 hfuel), List.foldl_nil]
  | succ fuel ih =>
    obtain ⟨hhead, htail⟩ := hstep c xs h
    rw [foldBy, ← Prod.mk.eta (p := step c), hhead]
    cases xs with
    | nil => rfl
    | cons x xs => exact ih htail (Nat.le_of_succ_le_succ hfuel)

theorem Holds.nth (h : c.Holds xs) (n : Nat) :
    (c.nth n).1 = xs[n]? ∧ (c.nth n).2.Holds (xs.drop (n + 1)) := by
  cases c with
  | array c => exact ArrayCursor.Holds.nth h n
  | block c => exact nthByNext_spec pops_next n h
  | runs c => exact nthByNext_spec pops_next n h

theorem Holds.nthBack (h : c.Holds xs) (n : Nat) :
    (c.nthBack n).1 = xs.reverse[n]? ∧ (c.nthBack n).2.Holds (xs.reverse.drop (n + 1)).reverse := by
  rw [← List.reverse_reverse xs] at h
  exact nthByNext_spec pops_nextBack n h

theorem Holds.fold {β : Type} (h : c.Holds xs) (f : β → Nat → β) (acc : β) :
    c.fold f acc = xs.foldl f acc :=
  foldBy_eq pops_next f h h.length_le

theorem Holds.foldBack {β : Type} (h : c.Holds xs) (f : β → Nat → β) (acc : β) :
    c.foldBack f acc = xs.reverse.foldl f acc := by
  have hlength := h.length_le
  rw [← List.reverse_reverse xs] at h
  rw [← List.length_reverse] at hlength
  exact foldBy_eq pops_nextBack f h hlength

end ChunkCursor

namespace EntryCursor

def Holds (c : EntryCursor) (xs : List Nat) : Prop :=
  ∃ ps, c.chunk.Holds ps ∧ xs = ps.map (valueAt c.key)

variable {c : EntryCursor} {xs : List Nat} {v : Nat}

theorem holds_ofEntry {e : Entry} (h : e.chunk.Valid) : (ofEntry e).Holds e.toList :=
  ⟨e.chunk.toList, ChunkCursor.holds_ofChunk h, rfl⟩

theorem Holds.keyOf_eq (h : c.Holds xs) (hv : v ∈ xs) : keyOf v = c.key := by
  obtain ⟨ps, hps, rfl⟩ := h
  obtain ⟨p, hp, rfl⟩ := List.mem_map.1 hv
  exact keyOf_valueAt _ (hps.lt hp)

theorem Holds.size (h : c.Holds xs) : c.size = xs.length := by
  obtain ⟨ps, hps, rfl⟩ := h
  rw [EntryCursor.size, hps.size, List.length_map]

theorem Holds.peek? (h : c.Holds xs) : c.peek? = xs.head? := by
  obtain ⟨ps, hps, rfl⟩ := h
  rw [EntryCursor.peek?, hps.peek?, List.head?_map]

theorem Holds.peekBack? (h : c.Holds xs) : c.peekBack? = xs.getLast? := by
  obtain ⟨ps, hps, rfl⟩ := h
  rw [EntryCursor.peekBack?, hps.peekBack?, List.getLast?_map]

theorem Holds.next (h : c.Holds xs) : c.next.1 = xs.head? ∧ c.next.2.Holds xs.tail := by
  obtain ⟨ps, hps, rfl⟩ := h
  obtain ⟨hhead, htail⟩ := hps.next
  refine ⟨?_, ps.tail, htail, List.map_tail.symm⟩
  rw [List.head?_map, ← hhead, EntryCursor.next]

theorem Holds.nextBack (h : c.Holds xs) :
    c.nextBack.1 = xs.getLast? ∧ c.nextBack.2.Holds xs.dropLast := by
  obtain ⟨ps, hps, rfl⟩ := h
  obtain ⟨hlast, hinit⟩ := hps.nextBack
  refine ⟨?_, ps.dropLast, hinit, List.map_dropLast.symm⟩
  rw [List.getLast?_map, ← hlast, EntryCursor.nextBack]

theorem Holds.nth (h : c.Holds xs) (n : Nat) :
    (c.nth n).1 = xs[n]? ∧ (c.nth n).2.Holds (xs.drop (n + 1)) := by
  obtain ⟨ps, hps, rfl⟩ := h
  obtain ⟨hget, hdrop⟩ := hps.nth n
  refine ⟨?_, ps.drop (n + 1), hdrop, List.map_drop.symm⟩
  rw [List.getElem?_map, ← hget, EntryCursor.nth]

theorem Holds.nthBack (h : c.Holds xs) (n : Nat) :
    (c.nthBack n).1 = xs.reverse[n]? ∧ (c.nthBack n).2.Holds (xs.reverse.drop (n + 1)).reverse := by
  obtain ⟨ps, hps, rfl⟩ := h
  obtain ⟨hget, hdrop⟩ := hps.nthBack n
  refine ⟨?_, _, hdrop, ?_⟩
  · rw [← List.map_reverse, List.getElem?_map, ← hget, EntryCursor.nthBack]
  · rw [← List.map_reverse, ← List.map_drop, ← List.map_reverse]
    rfl

theorem le_valueAt_iff (hkey : keyOf v = c.key) (p : Nat) :
    v ≤ valueAt c.key p ↔ positionOf v ≤ p := by
  simp only [valueAt, keyOf, positionOf] at *
  omega

theorem valueAt_le_iff (hkey : keyOf v = c.key) (p : Nat) :
    valueAt c.key p ≤ v ↔ p ≤ positionOf v := by
  simp only [valueAt, keyOf, positionOf] at *
  omega

theorem Holds.advanceTo (h : c.Holds xs) (hkey : keyOf v = c.key) :
    (c.advanceTo (positionOf v)).Holds (xs.filter (v ≤ ·)) := by
  obtain ⟨ps, hps, rfl⟩ := h
  refine ⟨_, hps.advanceTo (positionOf_lt v), ?_⟩
  simp only [List.filter_map, Function.comp_def, le_valueAt_iff hkey]
  rfl

theorem Holds.advanceBackTo (h : c.Holds xs) (hkey : keyOf v = c.key) :
    (c.advanceBackTo (positionOf v)).Holds (xs.filter (· ≤ v)) := by
  obtain ⟨ps, hps, rfl⟩ := h
  refine ⟨_, hps.advanceBackTo (positionOf v), ?_⟩
  simp only [List.filter_map, Function.comp_def, valueAt_le_iff hkey]
  rfl

theorem Holds.fold {β : Type} (h : c.Holds xs) (f : β → Nat → β) (acc : β) :
    c.fold f acc = xs.foldl f acc := by
  obtain ⟨ps, hps, rfl⟩ := h
  rw [EntryCursor.fold, hps.fold, List.foldl_map]

theorem Holds.foldBack {β : Type} (h : c.Holds xs) (f : β → Nat → β) (acc : β) :
    c.foldBack f acc = xs.reverse.foldl f acc := by
  obtain ⟨ps, hps, rfl⟩ := h
  rw [EntryCursor.foldBack, hps.foldBack, ← List.map_reverse, List.foldl_map]

end EntryCursor

end ChunkedSet
