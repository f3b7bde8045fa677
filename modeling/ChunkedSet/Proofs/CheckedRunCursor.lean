import ChunkedSet.Proofs.BlockChanges
import ChunkedSet.Proofs.CursorBatches

/-!
# Cursors over runs, checked

A cursor over runs keeps two indices and two positions in step. Its functions are repeated here
with every index, slice, sum and difference checked. On a cursor that walks over a list of maximal
runs no check fails, also when nothing is left, and each function leaves such a cursor.
-/

namespace ChunkedSet

variable {l : RunList} {xs ys : List Nat} {limit p : Nat}

/-! The part of an array that a search is given. -/

theorem partitionPointBetween_extract {α : Type} (q : α → Bool) (values : Array α)
    {start stop : Nat} (fuel : Nat) {lo hi : Nat} (hhi : start + hi ≤ stop) :
    start + partitionPointBetween q (values.extract start stop) fuel lo hi =
      partitionPointBetween q values fuel (start + lo) (start + hi) := by
  induction fuel generalizing lo hi with
  | zero => rfl
  | succ fuel ih =>
    have hmid : (start + lo + (start + hi)) / 2 = start + (lo + hi) / 2 := by omega
    rw [partitionPointBetween, partitionPointBetween]
    by_cases hlt : lo < hi
    · have hcut : (values.extract start stop)[(lo + hi) / 2]? = values[start + (lo + hi) / 2]? := by
        rw [Array.getElem?_extract]
        split
        · rfl
        · rw [eq_comm, Array.getElem?_eq_none_iff]
          omega
      rw [if_pos hlt, if_pos (Nat.add_lt_add_left hlt start)]
      simp only [hmid, hcut]
      split
      · split
        · exact ih hhi
        · exact ih (by omega)
      · rfl
    · rw [if_neg hlt, if_neg (by omega)]

theorem partitionPoint_extract {α : Type} (q : α → Bool) (values : Array α) {start stop : Nat}
    (hle : start ≤ stop) (hstop : stop ≤ values.size) :
    start + partitionPoint q (values.extract start stop) =
      partitionPointIn q values start stop := by
  have hsize : (values.extract start stop).size = stop - start := by
    rw [Array.size_extract, Nat.min_eq_left hstop]
  rw [partitionPoint, hsize, partitionPointBetween_extract q values _ (by omega),
    Nat.add_zero, Nat.add_sub_cancel' hle, partitionPointIn]

namespace RunCursor

variable {c : RunCursor}

/-! The functions of a cursor with every index, slice, sum and difference checked. -/

namespace Checked

def slice (runs : Array Run) (start stop : Nat) : Option (Array Run) :=
  if start ≤ stop ∧ stop ≤ runs.size then some (runs.extract start stop) else none

def add (m n : Nat) : Option Nat := if m + n < 4294967296 then some (m + n) else none

def runSize (r : Run) : Option Nat := (· + 1) <$> r.last.psub r.first

def peekBack (c : RunCursor) : Option (Option Nat) :=
  if c.isExhausted then some none else some <$> c.stop.psub 1

def advanceTo (c : RunCursor) (p : Nat) : Option RunCursor :=
  if p ≤ c.value then some c
  else do
    let ahead ← slice c.runs c.front c.runs.size
    let place := c.front + partitionPoint (·.last < p) ahead
    match c.runs[place]? with
    | some r => some { c with front := place, value := max p r.first }
    | none => some { c with value := beyond }

def advanceBackTo (c : RunCursor) (p : Nat) : Option RunCursor :=
  if c.stop ≤ p + 1 then some c
  else do
    let behind ← slice c.runs 0 (c.back + 1)
    match partitionPoint (·.first ≤ p) behind with
    | 0 => some { c with stop := 0 }
    | place + 1 => do
      let r ← c.runs[place]?
      return { c with back := place, stop := min p r.last + 1 }

def skipTo (c : RunCursor) (p : Nat) : Option RunCursor := do
  let r ← c.runs[c.front]?
  if r.last < p then
    return { c with front := c.front + 1, value := c.runs[c.front + 1]?.elim beyond Run.first }
  else return { c with value := p }

def next (c : RunCursor) : Option (Option Nat × RunCursor) :=
  if c.isExhausted then some (none, c)
  else do
    let left ← skipTo c (← add c.value 1)
    return (some c.value, left)

def nextBack (c : RunCursor) : Option (Option Nat × RunCursor) :=
  if c.isExhausted then some (none, c)
  else do
    let p ← c.stop.psub 1
    let r ← c.runs[c.back]?
    if p = r.first then
      match c.back with
      | 0 => return (some p, { c with stop := 0 })
      | lower + 1 => do
        let s ← c.runs[lower]?
        return (some p, { c with back := lower, stop := s.last + 1 })
    else return (some p, { c with stop := p })

def nextChunk (c : RunCursor) (limit : Nat) : Option (Option Run × RunCursor) :=
  if c.isExhausted || limit == 0 then some (none, c)
  else do
    let r ← c.runs[c.front]?
    let left ← c.stop.psub 1
    let reach ← (← add c.value limit).psub 1
    let last := min (min r.last left) reach
    let rest ← skipTo c (← add last 1)
    return (some ⟨c.value, last⟩, rest)

def size (c : RunCursor) : Option Nat :=
  if c.isExhausted then some 0
  else if c.front = c.back then c.stop.psub c.value
  else do
    let r ← c.runs[c.front]?
    let head ← (r.last + 1).psub c.value
    let between ← slice c.runs (c.front + 1) c.back
    let middle ← between.toList.foldlM (fun n r => (n + ·) <$> runSize r) 0
    let s ← c.runs[c.back]?
    let tail ← c.stop.psub s.first
    return head + middle + tail

end Checked

/-! What a cursor promises about its indices, and what follows for the checks. -/

/-- The cursor walks over `l` and has `xs` left. Its indices point into the list also when nothing
is left, apart from the front, which may stand behind the last run. -/
structure Walks (c : RunCursor) (l : RunList) (xs : List Nat) : Prop where
  runs_eq : c.runs = l.runs
  holds : c.Holds xs
  front_le : c.front ≤ c.runs.size
  back_lt : 0 < c.stop → c.back < c.runs.size

theorem Walks.valid (h : c.Walks l xs) : l.Valid := by
  have hvalid := h.holds.valid
  rwa [h.runs_eq] at hvalid

theorem Walks.ofList (hl : l.Valid) : (ofList l).Walks l l.toSorted.toList where
  runs_eq := rfl
  holds := holds_ofList hl
  front_le := Nat.zero_le _
  back_lt hpos := by
    by_contra hge
    have hsize : l.runs.size = 0 := by
      simp only [RunCursor.ofList] at hge
      omega
    simp [RunCursor.ofList, Array.size_eq_zero_iff.1 hsize] at hpos

theorem checked_slice {runs : Array Run} {start stop : Nat} (hle : start ≤ stop)
    (hstop : stop ≤ runs.size) : Checked.slice runs start stop = some (runs.extract start stop) :=
  if_pos ⟨hle, hstop⟩

theorem checked_add {m n : Nat} (h : m + n < 4294967296) : Checked.add m n = some (m + n) :=
  if_pos h

theorem isExhausted_iff (c : RunCursor) : c.isExhausted = true ↔ c.stop ≤ c.value :=
  decide_eq_true_iff

theorem lt_of_not_isExhausted (h : ¬c.isExhausted = true) : c.value < c.stop :=
  Nat.not_le.1 fun hle => h (c.isExhausted_iff.2 hle)

theorem checked_peekBack (c : RunCursor) : Checked.peekBack c = some c.peekBack? := by
  rw [Checked.peekBack, RunCursor.peekBack?]
  split
  · rfl
  · rename_i hleft
    rw [Nat.psub_eq_sub (Nat.one_le_of_lt (lt_of_not_isExhausted hleft))]
    rfl

theorem Holds.checked_skipTo (h : c.Holds xs) (hlt : c.value < c.stop) (p : Nat) :
    Checked.skipTo c p = some (c.skipTo p) := by
  obtain ⟨r, hr, -⟩ := h.front_run hlt
  simp only [Checked.skipTo, RunCursor.skipTo, frontLast, hr, Option.bind_eq_bind,
    Option.bind_some, Option.elim_some]
  split <;> rfl

theorem Holds.checked_next (h : c.Holds xs) : Checked.next c = some c.next := by
  rw [Checked.next, RunCursor.next]
  split
  · rfl
  · rename_i hleft
    have hlt := lt_of_not_isExhausted hleft
    have hsum : c.value + 1 < 4294967296 := by
      have hstop := h.stop_le
      unfold chunkSize at hstop
      omega
    rw [checked_add hsum, Option.bind_eq_bind, Option.bind_some, h.checked_skipTo hlt]
    rfl

/-- The check of the index fails where the front has passed the last run too early. -/
example : Checked.next ⟨#[⟨0, 3⟩], 1, 2, 0, 4⟩ = none := rfl

theorem Holds.checked_nextBack (h : c.Holds xs) : Checked.nextBack c = some c.nextBack := by
  rw [Checked.nextBack, RunCursor.nextBack]
  split
  · rfl
  · rename_i hleft
    have hlt := lt_of_not_isExhausted hleft
    obtain ⟨r, hr, -⟩ := h.back_run hlt
    have hback := (Array.getElem?_eq_some_iff.1 hr).1
    rw [Nat.psub_eq_sub (Nat.one_le_of_lt hlt)]
    simp only [Option.bind_eq_bind, Option.bind_some, backFirst, hr, Option.elim_some]
    split
    · cases hindex : c.back with
      | zero => rfl
      | succ lower =>
        have hs : c.runs[lower]? = some c.runs[lower] := Array.getElem?_eq_getElem (by omega)
        simp only [hs]
        rfl
    · rfl

theorem Holds.admits (h : c.Holds xs) (hlimit : limit < chunkSize) : c.Admits limit := by
  have hstop := h.stop_le
  unfold chunkSize at hstop hlimit
  rw [Admits]
  omega

theorem Holds.checked_nextChunk (h : c.Holds xs) (hadmits : c.Admits limit) :
    Checked.nextChunk c limit = some (c.nextChunk limit) := by
  rw [Checked.nextChunk, RunCursor.nextChunk]
  split
  · rfl
  · rename_i hleft
    rw [Bool.or_eq_true, not_or] at hleft
    have hlt := lt_of_not_isExhausted hleft.1
    have hroom : limit ≠ 0 := fun hzero => hleft.2 (beq_iff_eq.2 hzero)
    rw [Admits] at hadmits
    obtain ⟨r, hr, -⟩ := h.front_run hlt
    have hreach : (c.value + limit + 4294967295) % 4294967296 = c.value + limit - 1 := by omega
    have hlast : min (min r.last (c.stop - 1)) (c.value + limit - 1) + 1 < 4294967296 := by omega
    have hsum : c.value + limit < 4294967296 ∧ 1 ≤ c.value + limit := by omega
    simp only [hr, Nat.psub_eq_sub (Nat.one_le_of_lt hlt), checked_add hsum.1,
      Nat.psub_eq_sub hsum.2, checked_add hlast, h.checked_skipTo hlt, hreach, frontLast,
      Option.bind_eq_bind, Option.bind_some, Option.elim_some]
    rfl

theorem Walks.checked_advanceTo (h : c.Walks l xs) (p : Nat) :
    Checked.advanceTo c p = some (c.advanceTo p) := by
  rw [Checked.advanceTo, RunCursor.advanceTo]
  split
  · rfl
  · rw [checked_slice h.front_le (Nat.le_refl _), Option.bind_eq_bind, Option.bind_some,
      partitionPoint_extract _ c.runs h.front_le (Nat.le_refl _)]
    dsimp only
    cases c.runs[partitionPointIn (·.last < p) c.runs c.front c.runs.size]? <;> rfl

theorem Walks.checked_advanceBackTo (h : c.Walks l xs) (p : Nat) :
    Checked.advanceBackTo c p = some (c.advanceBackTo p) := by
  rw [Checked.advanceBackTo, RunCursor.advanceBackTo]
  split
  · rfl
  · have hback : c.back + 1 ≤ c.runs.size := h.back_lt (by omega)
    have hsearch := partitionPoint_extract (·.first ≤ p) c.runs (Nat.zero_le _) hback
    have hplace := partitionPointIn_le (·.first ≤ p) c.runs (Nat.zero_le (c.back + 1))
    rw [Nat.zero_add] at hsearch
    rw [checked_slice (Nat.zero_le _) hback, Option.bind_eq_bind, Option.bind_some, hsearch]
    cases hindex : partitionPointIn (·.first ≤ p) c.runs 0 (c.back + 1) with
    | zero => rfl
    | succ place =>
      have hr : c.runs[place]? = some c.runs[place] := Array.getElem?_eq_getElem (by omega)
      simp only [hr]
      rfl

theorem checked_runSizes {runs : List Run} (hruns : ∀ r ∈ runs, r.first ≤ r.last) (n : Nat) :
    runs.foldlM (fun n r => (n + ·) <$> Checked.runSize r) n =
      some (runs.foldl (fun n r => n + r.size) n) := by
  have hstep : ∀ n : Nat, True → ∀ r ∈ runs,
      (n + ·) <$> Checked.runSize r = some (n + r.size) ∧ True := by
    intro n _ r hr
    rw [Checked.runSize, Nat.psub_eq_sub (hruns r hr)]
    exact ⟨rfl, trivial⟩
  exact (foldlM_eq_some hstep trivial).1

theorem Holds.checked_size (h : c.Holds xs) : Checked.size c = some c.size := by
  rw [Checked.size, RunCursor.size]
  split
  · rfl
  · rename_i hleft
    have hlt := lt_of_not_isExhausted hleft
    obtain ⟨r, hr, hfront⟩ := h.front_run hlt
    obtain ⟨s, hs, hback⟩ := h.back_run hlt
    split
    · exact Nat.psub_eq_sub hlt.le
    · rename_i hends
      have hle := h.valid.index_le hr hs hback (hfront.1.trans (Nat.le_sub_one_of_lt hlt))
      have hsize := (Array.getElem?_eq_some_iff.1 hs).1
      have hbetween : ∀ t ∈ (c.runs.extract (c.front + 1) c.back).toList, t.first ≤ t.last := by
        intro t ht
        obtain ⟨k, -, -, hk⟩ := (RunList.mem_between ⟨c.runs⟩).1 ht
        exact (h.valid.run_spec hk).1
      have hhead : c.value ≤ r.last + 1 := hfront.2.trans (Nat.le_succ _)
      have htail : s.first ≤ c.stop := hback.1.trans (Nat.sub_le _ _)
      rw [checked_slice (by omega) hsize.le]
      simp only [hr, hs, Nat.psub_eq_sub hhead, Nat.psub_eq_sub htail, checked_runSizes hbetween,
        Option.bind_eq_bind, Option.bind_some, frontLast, backFirst, Option.elim_some,
        Array.foldl_toList]
      rfl

/-! Each step leaves a cursor that walks over the same list. -/

theorem Walks.skipTo (h : c.Walks l xs) (hlt : c.value < c.stop) (hleft : (c.skipTo p).Holds ys) :
    (c.skipTo p).Walks l ys := by
  obtain ⟨r, hr, -⟩ := h.holds.front_run hlt
  have hfront := (Array.getElem?_eq_some_iff.1 hr).1
  rw [RunCursor.skipTo] at *
  split_ifs at *
  · exact ⟨h.runs_eq, hleft, hfront, h.back_lt⟩
  · exact ⟨h.runs_eq, hleft, h.front_le, h.back_lt⟩

theorem Walks.next (h : c.Walks l xs) : c.next.2.Walks l xs.tail := by
  have hleft := h.holds.next.2
  rw [RunCursor.next] at *
  split_ifs at *
  · exact ⟨h.runs_eq, hleft, h.front_le, h.back_lt⟩
  · rename_i hlive
    exact h.skipTo (lt_of_not_isExhausted hlive) hleft

theorem Walks.nextBack (h : c.Walks l xs) : c.nextBack.2.Walks l xs.dropLast := by
  have hleft := h.holds.nextBack.2
  have hback := h.back_lt
  rw [RunCursor.nextBack] at *
  split_ifs at *
  · exact ⟨h.runs_eq, hleft, h.front_le, hback⟩
  · cases hindex : c.back with
    | zero =>
      rw [hindex] at hleft
      exact ⟨h.runs_eq, hleft, h.front_le, fun hpos => absurd hpos (Nat.lt_irrefl 0)⟩
    | succ lower =>
      rename_i hlive _
      rw [hindex] at hleft hback
      have hlower := hback (Nat.zero_lt_of_lt (lt_of_not_isExhausted hlive))
      exact ⟨h.runs_eq, hleft, h.front_le, fun _ => Nat.lt_of_succ_lt hlower⟩
  · rename_i hlive _
    exact ⟨h.runs_eq, hleft, h.front_le,
      fun _ => hback (Nat.zero_lt_of_lt (lt_of_not_isExhausted hlive))⟩

theorem Walks.advanceTo (h : c.Walks l xs) (hp : p < chunkSize) :
    (c.advanceTo p).Walks l (xs.dropWhile (· < p)) := by
  have hleft := h.holds.advanceTo hp
  rw [filter_ge_eq_dropWhile h.holds.sorted] at hleft
  rw [RunCursor.advanceTo] at *
  split_ifs at *
  · exact ⟨h.runs_eq, hleft, h.front_le, h.back_lt⟩
  · dsimp only at *
    cases hr : c.runs[partitionPointIn (·.last < p) c.runs c.front c.runs.size]? with
    | none =>
      rw [hr] at hleft
      exact ⟨h.runs_eq, hleft, h.front_le, h.back_lt⟩
    | some r =>
      rw [hr] at hleft
      exact ⟨h.runs_eq, hleft, (Array.getElem?_eq_some_iff.1 hr).1.le, h.back_lt⟩

theorem Walks.advanceBackTo (h : c.Walks l xs) (p : Nat) :
    (c.advanceBackTo p).Walks l (xs.reverse.dropWhile (p < ·)).reverse := by
  have hleft := h.holds.advanceBackTo p
  rw [filter_le_eq_dropWhile h.holds.sorted] at hleft
  rw [RunCursor.advanceBackTo] at *
  split_ifs at *
  · exact ⟨h.runs_eq, hleft, h.front_le, h.back_lt⟩
  · rename_i hbeyond
    have hback : c.back < c.runs.size := h.back_lt (by omega)
    have hplace := partitionPointIn_le (·.first ≤ p) c.runs (Nat.zero_le (c.back + 1))
    cases hindex : partitionPointIn (·.first ≤ p) c.runs 0 (c.back + 1) with
    | zero =>
      rw [hindex] at hleft
      exact ⟨h.runs_eq, hleft, h.front_le, fun hpos => absurd hpos (Nat.lt_irrefl 0)⟩
    | succ place =>
      rw [hindex] at hleft hplace
      exact ⟨h.runs_eq, hleft, h.front_le,
        fun _ => (Nat.le_of_succ_le_succ hplace).trans_lt hback⟩

end RunCursor

end ChunkedSet
