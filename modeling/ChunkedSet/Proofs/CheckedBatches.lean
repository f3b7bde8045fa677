import ChunkedSet.Proofs.CheckedRunCursor

/-!
# Batches of cursors, checked

The functions that fill a batch are repeated here with every index, slice, sum and difference
checked. On an admitted batch no check fails and every loop ends by its own condition, so that the
values and the cursor are those of the plain functions, and those of as many single steps.
-/

namespace ChunkedSet

variable {xs : List Nat} {room : Nat}

namespace ChunkCursor

/-! The positions that one chunk adds to a batch. A loop whose fuel is used up fails. -/

namespace Checked

open RunCursor.Checked (add runSize nextChunk)

def takeArray (c : ArrayCursor) (room : Nat) : Option (Array Nat × ArrayCursor) := do
  let taken := min (← c.back.psub c.front) room
  if c.front + taken ≤ c.values.size then
    return (c.values.extract c.front (c.front + taken), { c with front := c.front + taken })
  else none

def firstIn (ws : Words) (stop : Nat) : Nat → Nat → UInt64 → Option (Option Nat)
  | fuel, k, w =>
    if w ≠ 0 then do
      let found ← add (k * 64) (Word.lowest w)
      return if found < stop then some found else none
    else
      match fuel with
      | 0 => none
      | fuel + 1 => do
        let next ← add (k * 64) 64
        if stop ≤ next then return none
        else firstIn ws stop fuel (k + 1) (← ws[k + 1]?)

def nextBit (c : BlockCursor) : Option (Option Nat × BlockCursor) :=
  if c.front < c.back then do
    let w ← c.words[c.front / 64]?
    match ← firstIn c.words c.back 1024 (c.front / 64) (w &&& Word.upward (c.front % 64)) with
    | some found => return (some found, { c with front := ← add found 1 })
    | none => return (none, { c with front := c.back })
  else some (none, { c with front := c.back })

def takeBits : Nat → BlockCursor → Array Nat → Option (Array Nat × BlockCursor)
  | 0, c, out => some (out, c)
  | room + 1, c, out => do
    match ← nextBit c with
    | (some p, c) => takeBits room c (out.push p)
    | (none, c) => return (out, c)

/-- The positions of a stretch are written one by one, so it must not be longer than the room. -/
def takeStretches : Nat → Nat → RunCursor → Array Nat → Option (Array Nat × RunCursor)
  | 0, _, _, _ => none
  | fuel + 1, room, c, out => do
    match ← nextChunk c room with
    | (some r, c) =>
      let size ← runSize r
      takeStretches fuel (← room.psub size) c (out ++ Array.range' r.first size)
    | (none, c) => return (out, c)

def take (c : ChunkCursor) (room : Nat) : Option (Array Nat × ChunkCursor) :=
  match c with
  | array c => Prod.map id array <$> takeArray c room
  | block c => Prod.map id block <$> takeBits room c #[]
  | runs c => Prod.map id runs <$> takeStretches (2 * chunkSize) room c #[]

end Checked

theorem checked_takeArray {c : ArrayCursor} (h : c.Holds xs) (room : Nat) :
    Checked.takeArray c room =
      some (c.values.extract c.front (c.front + min c.size room),
        { c with front := c.front + min c.size room }) := by
  have hstop := h.spans.stop_eq
  have hsize := h.spans.stop_le
  have hle : c.front + min c.size room ≤ c.values.size := by
    rw [ArrayCursor.size]
    omega
  rw [Checked.takeArray, Nat.psub_eq_sub (by omega), Option.bind_eq_bind, Option.bind_some]
  exact if_pos hle

theorem getElem?_words (ws : Words) {k : Nat} (hk : k < 1024) : ws[k]? = some (ws.word k) := by
  rw [Words.word, dif_pos hk]
  exact Vector.getElem?_eq_getElem hk

theorem checked_firstIn (ws : Words) {stop fuel k : Nat} (w : UInt64) (hstop : stop ≤ chunkSize)
    (hk : k * 64 < stop) (hfuel : stop ≤ (k + fuel) * 64) :
    Checked.firstIn ws stop fuel k w = some (ws.firstIn stop fuel k w) := by
  unfold chunkSize at hstop
  induction fuel generalizing k w with
  | zero => exact absurd hfuel (Nat.not_le.2 hk)
  | succ fuel ih =>
    rw [Checked.firstIn, Words.firstIn]
    split
    · rename_i hw
      have hlowest := Word.lowest_lt hw
      rw [RunCursor.checked_add (by omega)]
      rfl
    · rw [RunCursor.checked_add (by omega), Option.bind_eq_bind, Option.bind_some, ← Nat.succ_mul]
      split
      · rfl
      · rw [getElem?_words ws (by omega)]
        exact ih _ (by omega) (by omega)

theorem checked_nextBit {c : BlockCursor} (h : c.Holds xs) :
    Checked.nextBit c = some c.next := by
  have hback := h.back_le
  rw [Checked.nextBit, BlockCursor.next]
  split
  · rename_i hlt
    have hscan : c.peek? = c.words.firstIn c.back 1024 (c.front / 64)
        (c.words.word (c.front / 64) &&& Word.upward (c.front % 64)) := if_pos hlt
    have hfront : c.front / 64 * 64 < c.back := (Nat.div_mul_le_self _ _).trans_lt hlt
    have hfuel : c.back ≤ (c.front / 64 + 1024) * 64 := by
      rw [Nat.add_mul]
      exact hback.trans (Nat.le_add_left chunkSize _)
    have hword : c.words[c.front / 64]? = some (c.words.word (c.front / 64)) :=
      getElem?_words _ (by unfold chunkSize at hback; omega)
    simp only [hword, Option.bind_eq_bind, Option.bind_some, checked_firstIn _ _ hback hfront hfuel]
    rw [← hscan]
    cases hpeek : c.peek? with
    | none => rfl
    | some p =>
      have hp := h.lt (List.mem_of_head? (h.peek?.symm.trans hpeek))
      have hnext : p + 1 < 4294967296 := by
        unfold chunkSize at hp
        omega
      simp only [Option.bind_some, RunCursor.checked_add hnext]
      rfl
  · rename_i hge
    have hnone : c.peek? = none := if_neg hge
    rw [hnone]

theorem checked_takeBits {c : BlockCursor} (h : c.Holds xs) (room : Nat) (out : Array Nat) :
    Checked.takeBits room c out = some (takeBits room c out) := by
  induction room generalizing c xs out with
  | zero => rfl
  | succ room ih =>
    have hleft := h.next.2
    rw [Checked.takeBits, takeBits, checked_nextBit h, Option.bind_eq_bind, Option.bind_some]
    cases hnext : c.next with
    | mk found left =>
      rw [hnext] at hleft
      cases found with
      | none => rfl
      | some p => exact ih hleft (out.push p)

theorem checked_takeStretches {c : RunCursor} (h : c.Holds xs) (hadmits : c.Admits room)
    {fuel : Nat} (hfuel : min room xs.length < fuel) (out : Array Nat) :
    Checked.takeStretches fuel room c out = some (takeStretches fuel room c out) := by
  induction fuel generalizing c xs room out with
  | zero => exact absurd hfuel (Nat.not_lt_zero _)
  | succ fuel ih =>
    rw [Checked.takeStretches, h.checked_nextChunk hadmits, Option.bind_eq_bind, Option.bind_some]
    by_cases hnone : c.stop ≤ c.value ∨ room = 0
    · rw [takeStretches, RunCursor.nextChunk_eq_none hnone]
      rfl
    · obtain ⟨hlt, hroom⟩ : c.value < c.stop ∧ 0 < room := by omega
      have hpos := h.stretch_pos hlt hroom
      have hle := h.stretch_le hlt room
      have hsize : RunCursor.Checked.runSize ⟨c.value, c.value + c.stretch room - 1⟩ =
          some (c.stretch room) := by
        rw [RunCursor.Checked.runSize]
        dsimp only
        rw [Nat.psub_eq_sub (by omega), Option.map_eq_map, Option.map_some, Option.some_inj]
        omega
      rw [takeStretches_stretch h hadmits hlt hroom, h.nextChunk_eq hlt hroom hadmits]
      simp only [hsize, Nat.psub_eq_sub hle.1, Option.bind_eq_bind, Option.bind_some]
      exact ih (h.drop_stretch hlt hroom) (hadmits.behind_stretch _)
        (by rw [List.length_drop]; omega) _

theorem Holds.checked_take {c : ChunkCursor} (h : c.Holds xs) (hadmits : c.Admits room) :
    Checked.take c room = some (c.take room) := by
  cases c with
  | array c =>
    rw [Checked.take, checked_takeArray h]
    rfl
  | block c =>
    rw [Checked.take, checked_takeBits h]
    rfl
  | runs c =>
    have hlength : xs.length ≤ chunkSize := h.length_le
    have hfuel : min room xs.length < 2 * chunkSize := by
      simp only [chunkSize] at *
      omega
    rw [Checked.take, checked_takeStretches h hadmits hfuel]
    rfl

end ChunkCursor

namespace Cursor

/-! The whole batch. The buffer has `room` slots, and those in front are filled with `out`. -/

namespace Checked

def write (room : Nat) (out more : Array Nat) : Option (Array Nat) :=
  if out.size + more.size ≤ room then some (out ++ more) else none

def takeEntry (c : EntryCursor) (room : Nat) : Option (Array Nat × EntryCursor) := do
  let (out, chunk) ← ChunkCursor.Checked.take c.chunk room
  return (out.map (valueAt c.key), { c with chunk })

def takeFront (c : Cursor) (room : Nat) : Option (Array Nat × Cursor) :=
  match c.front with
  | some f => do
    let (out, f) ← takeEntry f room
    return (out, { c with front := some f })
  | none => some (#[], c)

def takeFromBack (c : Cursor) (room : Nat) (out : Array Nat) : Option (Array Nat × Cursor) :=
  match c.back with
  | some b => do
    let (more, b) ← takeEntry b (← room.psub out.size)
    return (← write room out more, { c with front := none, back := some b })
  | none => some (out, { c with front := none })

def takeOpening (room : Nat) : Nat → Array Nat → Cursor → Option (Array Nat × Cursor)
  | n, out, c =>
    if room ≤ out.size then some (out, c)
    else do
      let (more, c) ← takeFront c (← room.psub out.size)
      let out ← write room out more
      if room ≤ out.size then return (out, c)
      else
        match n with
        | 0 => takeFromBack c room out
        | n + 1 => do
          let e ← c.entries[c.start]?
          takeOpening room n out { c with front := some (.ofEntry e), start := c.start + 1 }

def nextMany (c : Cursor) (room : Nat) : Option (Array Nat × Cursor) := do
  takeOpening room (← c.stop.psub c.start) #[] c

end Checked

variable {c : Cursor} {fs bs : List Nat} {es : List Entry} {out : Array Nat}

theorem checked_write {more : Array Nat} (h : out.size + more.size ≤ room) :
    Checked.write room out more = some (out ++ more) :=
  if_pos h

theorem checked_takeEntry {c : EntryCursor} (h : c.Holds xs) (hadmits : c.chunk.Admits room) :
    Checked.takeEntry c room = some (c.take room) := by
  obtain ⟨ps, hps, -⟩ := h
  rw [Checked.takeEntry, hps.checked_take hadmits]
  rfl

theorem Splits.checked_takeFront (h : c.Splits fs es bs) (hadmits : EndAdmits c.front room) :
    Checked.takeFront c room = some (c.takeFront room) := by
  obtain ⟨_ | f, entries, start, stop, back⟩ := c
  · rfl
  · have hf : f.Holds fs := h.front
    simp only [Checked.takeFront, checked_takeEntry hf (hadmits f rfl), Option.bind_eq_bind,
      Option.bind_some]
    rfl

theorem Splits.fits_takeFront (h : c.Splits fs es bs)
    (hadmits : EndAdmits c.front (room - out.size)) (hout : out.size ≤ room) :
    out.size + (c.takeFront (room - out.size)).1.size ≤ room ∧
      (c.takeFront (room - out.size)).2.Splits (fs.drop (room - out.size)) es bs := by
  obtain ⟨htaken, hleft⟩ := h.takeFront hadmits
  refine ⟨?_, hleft⟩
  simp only [htaken, List.size_toArray, List.length_take]
  omega

theorem Splits.checked_takeFromBack (h : c.Splits fs es bs) (hadmits : EndAdmits c.back room)
    (hout : out.size ≤ room) :
    Checked.takeFromBack c room out = some (c.takeFromBack room out) := by
  have hadmits := hadmits.mono (Nat.sub_le room out.size)
  obtain ⟨front, entries, start, stop, _ | b⟩ := c
  · rfl
  · have hb : b.Holds bs := h.back
    have htaken := congrArg Array.size (hb.take (hadmits b rfl)).1
    simp only [List.size_toArray, List.length_take] at htaken
    have hwrite : Checked.write room out (b.take (room - out.size)).1 = _ :=
      checked_write (by omega)
    rw [Checked.takeFromBack, Nat.psub_eq_sub hout]
    simp only [Option.bind_eq_bind, Option.bind_some, checked_takeEntry hb (hadmits b rfl), hwrite]
    rfl

theorem Splits.checked_takeOpening (h : c.Splits fs es bs) (hfront : EndAdmits c.front room)
    (hrest : ∀ e ∈ es, (ChunkCursor.ofChunk e.chunk).Admits room)
    (hback : EndAdmits c.back room) (hout : out.size ≤ room) :
    Checked.takeOpening room es.length out c = some (Cursor.takeOpening room es.length out c) := by
  -- as in `Splits.takeOpening`, each entry that is opened becomes the front
  induction es generalizing c fs out with
  | nil =>
    rw [Checked.takeOpening.eq_def, Cursor.takeOpening.eq_def]
    dsimp only
    split
    · rfl
    · have hless := hfront.mono (Nat.sub_le room out.size)
      obtain ⟨hfits, hleft⟩ := h.fits_takeFront hless hout
      simp only [Nat.psub_eq_sub hout, h.checked_takeFront hless, checked_write hfits,
        Option.bind_eq_bind, Option.bind_some]
      split
      · rfl
      · exact hleft.checked_takeFromBack (by rwa [takeFront_back]) (by rwa [Array.size_append])
  | cons e es ih =>
    rw [Checked.takeOpening.eq_def, Cursor.takeOpening.eq_def]
    dsimp only
    split
    · rfl
    · have hless := hfront.mono (Nat.sub_le room out.size)
      obtain ⟨hfits, hleft⟩ := h.fits_takeFront hless hout
      simp only [Nat.psub_eq_sub hout, h.checked_takeFront hless, checked_write hfits,
        Option.bind_eq_bind, Option.bind_some, List.length_cons, hleft.getElem?_start]
      split
      · rfl
      · have hvalid := h.chunk_valid List.mem_cons_self
        have hopen := hleft.openFront (EntryCursor.holds_ofEntry hvalid) rfl
        have hfirst : EndAdmits (some (.ofEntry e)) room := by
          rintro f ⟨⟩
          exact hrest e List.mem_cons_self
        exact ih hopen hfirst (fun e he => hrest e (List.mem_cons_of_mem _ he))
          (by rwa [takeFront_back]) (by rwa [Array.size_append])

theorem Holds.checked_nextMany (h : c.Holds xs) (hadmits : c.Admits room) :
    Checked.nextMany c room = some (c.nextMany room) := by
  obtain ⟨fs, es, bs, h, -⟩ := h
  have hle : c.start ≤ c.stop := h.spans.stop_eq ▸ Nat.le_add_right _ _
  rw [Checked.nextMany, Nat.psub_eq_sub hle, Cursor.nextMany, h.length_eq]
  exact h.checked_takeOpening hadmits.front (h.rest ▸ hadmits.rest) hadmits.back (Nat.zero_le room)

/-! Batches and single steps. -/

theorem run_replicate_next (n : Nat) (xs : List Nat) :
    CursorStep.run CursorStep.onQueue (List.replicate n .next) xs = (xs.take n, xs.drop n) := by
  induction n generalizing xs with
  | zero => rfl
  | succ n ih =>
    rw [List.replicate_succ, CursorStep.run_cons, ih]
    cases xs with
    | nil => simp [CursorStep.onQueue]
    | cons x xs => rfl

/-- A cursor over the set, or over a range of it, after steps and admitted batches. -/
inductive Reached (s : IntSet) : Cursor → Prop
  | ofSet : Reached s (ofSet s)
  | ofRange {range : Bounds} (hrange : range.InDomain) : Reached s (ofRange s range)
  | step {c : Cursor} (h : Reached s c) (a : CursorStep) : Reached s (a.onCursor c).2
  | batch {c : Cursor} {room : Nat} (h : Reached s c) (hroom : c.Admits room) :
      Reached s (c.nextMany room).2

theorem Reached.queued {s : IntSet} (hs : s.Valid) (h : Reached s c) : ∃ xs, c.Queued xs := by
  induction h with
  | ofSet => exact ⟨_, queued_ofSet hs⟩
  | ofRange hrange => exact ⟨_, queued_ofRange hs hrange⟩
  | step _ a ih =>
    obtain ⟨xs, hxs⟩ := ih
    exact ⟨_, (hxs.step a).2⟩
  | batch _ hroom ih =>
    obtain ⟨xs, hxs⟩ := ih
    exact ⟨_, (hxs.nextMany hroom).2⟩

/-- A batch returns the values that single steps return, as many as fit and are left, and what it
leaves cannot be told from what these steps leave. No check fails on the way. -/
theorem nextMany_eq_steps {s : IntSet} (hs : s.Valid) (hc : Reached s c) (hroom : c.Admits room) :
    let count := min room c.size
    let steps := CursorStep.run CursorStep.onCursor (List.replicate count .next) c
    (c.nextMany room).1.toList = steps.1 ∧ (c.nextMany room).1.size = count ∧
      Checked.nextMany c room = some (c.nextMany room) ∧
      ∃ left, (c.nextMany room).2.RefinesQueue left ∧ steps.2.RefinesQueue left := by
  intro count steps
  obtain ⟨xs, hxs⟩ := hc.queued hs
  obtain ⟨htaken, hleft⟩ := hxs.nextMany hroom
  have hcount : count = min room xs.length := by rw [← hxs.holds.size]
  have hqueue : CursorStep.run CursorStep.onQueue (List.replicate count .next) xs =
      (xs.take room, xs.drop room) := by
    rw [run_replicate_next, hcount, ← List.take_eq_take_min, ← List.drop_eq_drop_min]
  have hsteps := hxs.run (List.replicate count .next)
  rw [hqueue] at hsteps
  rw [htaken]
  refine ⟨hsteps.1.symm, ?_, hxs.holds.checked_nextMany hroom, _, hleft.refines,
    hsteps.2.refines⟩
  rw [List.size_toArray, List.length_take, hcount]

theorem nextMany_eq_steps_mixed :
    let s : IntSet := ⟨#[⟨0, .array ⟨#[1, 65535]⟩⟩, ⟨7, .runs ⟨#[⟨0, 2⟩, ⟨5, 5⟩]⟩⟩]⟩
    let c := (CursorStep.onCursor .nextBack (ofSet s)).2
    let steps := CursorStep.run CursorStep.onCursor (List.replicate 4 .next) c
    s.Valid ∧ Reached s c ∧ c.Admits 4 ∧ steps.1 = [1, 65535, 458752, 458753] ∧
      (c.nextMany 4).1 = #[1, 65535, 458752, 458753] ∧
      Checked.nextMany c 4 = some (c.nextMany 4) ∧
      ∃ left, (c.nextMany 4).2.RefinesQueue left ∧ steps.2.RefinesQueue left := by
  intro s c steps
  have hs : s.Valid := by decide
  have hc : Reached s c := .step .ofSet .nextBack
  have hroom : c.Admits 4 := by
    obtain ⟨xs, hxs⟩ := hc.queued hs
    exact hxs.holds.admits (by decide)
  have hsteps : steps.1 = [1, 65535, 458752, 458753] := by decide +kernel
  have hsize : c.size = 5 := by decide +kernel
  obtain ⟨htaken, -, hchecked, hleft⟩ := nextMany_eq_steps hs hc hroom
  rw [hsize] at htaken hleft
  refine ⟨hs, hc, hroom, hsteps, ?_, hchecked, hleft⟩
  rw [← Array.toList_inj, htaken]
  exact hsteps

/-- A batch that is not admitted: a check of the sum fails, and where the sum wraps around instead
the front moves back to values that the set does not hold. -/
theorem nextMany_wraps :
    let s : IntSet := ⟨#[⟨0, .runs ⟨#[⟨5, 10⟩]⟩⟩]⟩
    let steps := CursorStep.run CursorStep.onCursor (List.replicate 6 .next) (ofSet s)
    s.Valid ∧ (ofSet s).size = 6 ∧ steps.1 = [5, 6, 7, 8, 9, 10] ∧
      (Checked.nextMany (ofSet s) 4294967295).isNone ∧
      ((ofSet s).nextMany 4294967295).1 = #[1, 2, 3, 4, 5, 6, 7, 8, 9, 10] := by
  decide +kernel

end Cursor

end ChunkedSet
