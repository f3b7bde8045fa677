import ChunkedSet.Proofs.CursorQueue

/-!
# Batches of cursors

A batch takes up to a number of values at once, by a path of its own for each representation. It
returns what as many single steps return, and leaves the cursor where they leave it.

A stretch of a run ends at a position that is computed modulo 2^32. Batches that are too long for
the runs they read are not admitted here: past that bound the sum wraps around.
-/

namespace ChunkedSet

variable {xs : List Nat} {room : Nat}

namespace RunCursor

/-- The end of a stretch of `room` positions does not wrap around, wherever the front stands. -/
def Admits (c : RunCursor) (room : Nat) : Prop := c.stop + room ≤ 4294967296

variable {c : RunCursor}

@[simp] theorem skipTo_stop (c : RunCursor) (p : Nat) : (c.skipTo p).stop = c.stop := by
  rw [skipTo]
  split_ifs <;> rfl

theorem nextChunk_eq_none (h : c.stop ≤ c.value ∨ room = 0) : c.nextChunk room = (none, c) := by
  simp only [nextChunk, isExhausted, Bool.or_eq_true, decide_eq_true_eq, beq_iff_eq, if_pos h]

def stretch (c : RunCursor) (room : Nat) : Nat := min (min (c.frontLast + 1) c.stop - c.value) room

theorem Holds.stretch_pos (h : c.Holds xs) (hlt : c.value < c.stop) (hroom : 0 < room) :
    0 < c.stretch room := by
  have hlast := h.le_frontLast hlt
  rw [stretch]
  omega

theorem Holds.nextChunk_eq (h : c.Holds xs) (hlt : c.value < c.stop) (hroom : 0 < room)
    (hadmits : c.Admits room) : c.nextChunk room =
      (some ⟨c.value, c.value + c.stretch room - 1⟩, c.skipTo (c.value + c.stretch room)) := by
  have hlast := h.le_frontLast hlt
  have hreach : (c.value + room + 4294967295) % 4294967296 = c.value + room - 1 := by
    rw [Admits] at hadmits
    omega
  have hend : min (min c.frontLast (c.stop - 1)) (c.value + room - 1) =
      c.value + c.stretch room - 1 := by
    rw [stretch]
    omega
  have hpos := h.stretch_pos hlt hroom
  have hnext : c.value + c.stretch room - 1 + 1 = c.value + c.stretch room := by omega
  rw [nextChunk, if_neg (by simp [isExhausted]; omega)]
  simp only [hreach, hend, hnext]

theorem Holds.split_stretch (h : c.Holds xs) (hlt : c.value < c.stop) (room : Nat) :
    xs = List.range' c.value (c.stretch room) ++ xs.filter (c.value + c.stretch room ≤ ·) := by
  obtain ⟨r, hr, hmem⟩ := h.front_run hlt
  have hstretch : ∀ p, p < c.value + c.stretch room → c.value ≤ p → p < c.stop ∧ p ≤ r.last := by
    intro p hp hle
    simp only [stretch, frontLast, hr, Option.elim_some] at hp
    omega
  refine h.lists.unique ⟨?_, fun p => ?_⟩
  · refine List.pairwise_append.2 ⟨List.pairwise_lt_range', h.sorted.filter _, ?_⟩
    intro p hp q hq
    have hbehind := of_decide_eq_true (List.mem_filter.1 hq).2
    exact (List.mem_range'_1.1 hp).2.trans_le hbehind
  · rw [List.mem_append, List.mem_range'_1, List.mem_filter, decide_eq_true_eq, h.lists.2 p]
    constructor
    · rintro (⟨hle, hp⟩ | hp)
      · obtain ⟨hstop, hlast⟩ := hstretch p hp hle
        exact ⟨hle, hstop, _, r, hr, hmem.1.trans hle, hlast⟩
      · exact hp.1
    · intro hp
      rcases Nat.lt_or_ge p (c.value + c.stretch room) with hin | hbehind
      · exact Or.inl ⟨hp.1, hin⟩
      · exact Or.inr ⟨hp, hbehind⟩

theorem Holds.take_stretch (h : c.Holds xs) (hlt : c.value < c.stop) (room : Nat) :
    xs.take (c.stretch room) = List.range' c.value (c.stretch room) := by
  rw [h.split_stretch hlt room]
  exact List.take_left' List.length_range'

theorem Holds.drop_stretch_eq (h : c.Holds xs) (hlt : c.value < c.stop) (room : Nat) :
    xs.drop (c.stretch room) = xs.filter (c.value + c.stretch room ≤ ·) := by
  conv_lhs => rw [h.split_stretch hlt room]
  exact List.drop_left' List.length_range'

theorem Holds.drop_stretch (h : c.Holds xs) (hlt : c.value < c.stop) (hroom : 0 < room) :
    (c.skipTo (c.value + c.stretch room)).Holds (xs.drop (c.stretch room)) := by
  have hpos := h.stretch_pos hlt hroom
  rw [h.drop_stretch_eq hlt]
  refine h.skipTo hlt (by omega) ?_
  rw [stretch] at *
  omega

theorem Holds.stretch_le (h : c.Holds xs) (hlt : c.value < c.stop) (room : Nat) :
    c.stretch room ≤ room ∧ c.stretch room ≤ xs.length := by
  have hlength := congrArg List.length (h.take_stretch hlt room)
  rw [List.length_take, List.length_range'] at hlength
  exact ⟨Nat.min_le_right _ _, hlength ▸ Nat.min_le_right _ _⟩

theorem Admits.behind_stretch (h : c.Admits room) (p : Nat) :
    (c.skipTo p).Admits (room - c.stretch room) := by
  rw [Admits, skipTo_stop]
  exact (Nat.add_le_add_left (Nat.sub_le _ _) _).trans h

end RunCursor

namespace ChunkCursor

theorem takeStretches_stretch {c : RunCursor} (h : c.Holds xs) (hadmits : c.Admits room)
    (hlt : c.value < c.stop) (hroom : 0 < room) (fuel : Nat) (out : Array Nat) :
    takeStretches (fuel + 1) room c out =
      takeStretches fuel (room - c.stretch room) (c.skipTo (c.value + c.stretch room))
        (out ++ Array.range' c.value (c.stretch room)) := by
  have hpos := h.stretch_pos hlt hroom
  have hsize : c.value + c.stretch room - 1 + 1 - c.value = c.stretch room := by omega
  rw [takeStretches, h.nextChunk_eq hlt hroom hadmits]
  simp only [hsize]

theorem takeStretches_spec {c : RunCursor} (h : c.Holds xs) (hadmits : c.Admits room) {fuel : Nat}
    (hfuel : min room xs.length < fuel) (out : Array Nat) :
    (takeStretches fuel room c out).1 = out ++ (xs.take room).toArray ∧
      (takeStretches fuel room c out).2.Holds (xs.drop room) := by
  induction fuel generalizing c xs room out with
  | zero => exact absurd hfuel (Nat.not_lt_zero _)
  | succ fuel ih =>
    by_cases hnone : c.stop ≤ c.value ∨ room = 0
    · have hempty : xs = [] ∨ room = 0 := hnone.imp_left h.eq_nil_iff.2
      have htake : xs.take room = [] := List.take_eq_nil_iff.2 hempty.symm
      have hdrop : xs.drop room = xs := by
        rcases hempty with rfl | rfl
        · exact List.drop_nil
        · exact List.drop_zero
      rw [takeStretches, RunCursor.nextChunk_eq_none hnone, htake, hdrop]
      exact ⟨by simp, h⟩
    · obtain ⟨hlt, hroom⟩ : c.value < c.stop ∧ 0 < room := by omega
      have hpos := h.stretch_pos hlt hroom
      have hle := h.stretch_le hlt room
      have hsplit : room = c.stretch room + (room - c.stretch room) := by omega
      have hrest := ih (h.drop_stretch hlt hroom) (hadmits.behind_stretch _)
        (by rw [List.length_drop]; omega) (out ++ Array.range' c.value (c.stretch room))
      rw [takeStretches_stretch h hadmits hlt hroom]
      rw [List.drop_drop, ← hsplit] at hrest
      refine ⟨?_, hrest.2⟩
      rw [hrest.1, Array.append_assoc]
      conv_rhs => rw [hsplit, List.take_add, h.take_stretch hlt room,
        ← List.append_toArray, List.toArray_range']

theorem takeBits_spec {c : BlockCursor} (h : c.Holds xs) (room : Nat) (out : Array Nat) :
    (takeBits room c out).1 = out ++ (xs.take room).toArray ∧
      (takeBits room c out).2.Holds (xs.drop room) := by
  induction room generalizing c xs out with
  | zero => exact ⟨by simp [takeBits], h⟩
  | succ room ih =>
    obtain ⟨hhead, htail⟩ := h.next
    rw [takeBits, ← Prod.mk.eta (p := c.next), hhead]
    cases xs with
    | nil => exact ⟨by simp, htail⟩
    | cons x xs =>
      obtain ⟨hout, hleft⟩ := ih htail (out.push x)
      refine ⟨?_, hleft⟩
      simpa using hout

def Admits (c : ChunkCursor) (room : Nat) : Prop :=
  match c with
  | runs c => c.Admits room
  | _ => True

variable {c : ChunkCursor}

theorem Admits.mono {less : Nat} (h : c.Admits room) (hle : less ≤ room) : c.Admits less := by
  cases c with
  | array c => trivial
  | block c => trivial
  | runs c => exact (Nat.add_le_add_left hle c.stop).trans h

theorem Holds.admits (h : c.Holds xs) (hroom : chunkSize + room ≤ 4294967296) : c.Admits room := by
  cases c with
  | array c => trivial
  | block c => trivial
  | runs c => exact (Nat.add_le_add_right h.stop_le room).trans hroom

theorem Holds.take (h : c.Holds xs) (hadmits : c.Admits room) :
    (c.take room).1 = (xs.take room).toArray ∧ (c.take room).2.Holds (xs.drop room) := by
  cases c with
  | array c =>
    have h : c.Holds xs := h
    have hle : min room xs.length ≤ xs.length := Nat.min_le_right _ _
    have hcount : min c.size room = min room xs.length := by rw [h.size, Nat.min_comm]
    have htaken := (h.take hle).spans.toList_extract
    have hleft := h.drop hle
    rw [← List.take_eq_take_min] at htaken
    rw [← List.drop_eq_drop_min] at hleft
    rw [ChunkCursor.take, hcount, ← htaken]
    exact ⟨Array.toArray_toList.symm, hleft⟩
  | block c =>
    have hbits := takeBits_spec (c := c) h room #[]
    rw [Array.empty_append] at hbits
    exact hbits
  | runs c =>
    have hlength : xs.length ≤ chunkSize := h.length_le
    have hfuel : min room xs.length < 2 * chunkSize := by
      simp only [chunkSize] at *
      omega
    have hstretches := takeStretches_spec (c := c) h hadmits hfuel #[]
    rw [Array.empty_append] at hstretches
    exact hstretches

end ChunkCursor

theorem EntryCursor.Holds.take {c : EntryCursor} (h : c.Holds xs) (hadmits : c.chunk.Admits room) :
    (c.take room).1 = (xs.take room).toArray ∧ (c.take room).2.Holds (xs.drop room) := by
  obtain ⟨ps, hps, rfl⟩ := h
  obtain ⟨htaken, hleft⟩ := hps.take hadmits
  refine ⟨?_, ps.drop room, hleft, List.map_drop.symm⟩
  rw [← List.map_take, ← List.map_toArray, ← htaken, EntryCursor.take]

def EndAdmits (o : Option EntryCursor) (room : Nat) : Prop := ∀ c ∈ o, c.chunk.Admits room

theorem EndAdmits.mono {o : Option EntryCursor} {less : Nat} (h : EndAdmits o room)
    (hle : less ≤ room) : EndAdmits o less :=
  fun c hc => (h c hc).mono hle

theorem EndHolds.admits {o : Option EntryCursor} (h : EndHolds o xs)
    (hroom : chunkSize + room ≤ 4294967296) : EndAdmits o room := by
  rintro c rfl
  obtain ⟨ps, hps, -⟩ := h
  exact hps.admits hroom

namespace Cursor

structure Admits (c : Cursor) (room : Nat) : Prop where
  front : EndAdmits c.front room
  rest : ∀ e ∈ c.rest.toList, (ChunkCursor.ofChunk e.chunk).Admits room
  back : EndAdmits c.back room

variable {c : Cursor} {fs bs : List Nat} {es : List Entry}

/-- The slots behind `out`, up to `room`, hold the first of the values, and the others are left. -/
def Fills (room : Nat) (out : Array Nat) (xs : List Nat) (result : Array Nat × Cursor) : Prop :=
  result.1 = out ++ (xs.take (room - out.size)).toArray ∧
    result.2.Holds (xs.drop (room - out.size))

theorem Fills.prepend {out : Array Nat} {result : Array Nat × Cursor} {ys : List Nat}
    (h : Fills room (out ++ ys.toArray) xs result) (hle : out.size + ys.length ≤ room) :
    Fills room out (ys ++ xs) result := by
  have hsize : (out ++ ys.toArray).size = out.size + ys.length := by simp
  rw [Fills, hsize, Nat.sub_add_eq] at h
  rw [Fills, List.take_append, List.drop_append, List.take_of_length_le (by omega),
    List.drop_of_length_le (by omega), ← List.append_toArray, ← Array.append_assoc]
  exact h

theorem Splits.takeFront (h : c.Splits fs es bs) (hadmits : EndAdmits c.front room) :
    (c.takeFront room).1 = (fs.take room).toArray ∧
      (c.takeFront room).2.Splits (fs.drop room) es bs := by
  obtain ⟨_ | f, entries, start, stop, back⟩ := c
  · obtain rfl : fs = [] := h.front
    rw [List.take_nil, List.drop_nil]
    exact ⟨rfl, h⟩
  · have hf : f.Holds fs := h.front
    obtain ⟨htaken, hleft⟩ := hf.take (hadmits f rfl)
    exact ⟨htaken, h.setFront rfl hleft rfl⟩

@[simp] theorem takeFront_back (c : Cursor) (room : Nat) : (c.takeFront room).2.back = c.back := by
  obtain ⟨_ | f, entries, start, stop, back⟩ := c <;> rfl

theorem Splits.takeFromBack (h : c.Splits [] [] bs) (hadmits : EndAdmits c.back room)
    (out : Array Nat) : Fills room out bs (c.takeFromBack room out) := by
  have hadmits := hadmits.mono (Nat.sub_le room out.size)
  obtain ⟨front, entries, start, stop, _ | b⟩ := c
  · obtain rfl : bs = [] := h.back
    exact ⟨by simp [Cursor.takeFromBack], _, _, _, h.closeFront, by simp [listed]⟩
  · have hb : b.Holds bs := h.back
    obtain ⟨htaken, hleft⟩ := hb.take (hadmits b rfl)
    refine ⟨?_, _, _, _, h.closeFront.setBack rfl hleft rfl, by simp [listed]⟩
    rw [Cursor.takeFromBack, ← htaken]

theorem Splits.takeOpening_full (h : c.Splits fs es bs) {out : Array Nat}
    (hadmits : EndAdmits c.front room) (hfull : room ≤ out.size + fs.length) (n : Nat) :
    Fills room out (fs ++ listed es ++ bs) (takeOpening room n out c) := by
  obtain ⟨htaken, hleft⟩ := h.takeFront (hadmits.mono (Nat.sub_le room out.size))
  rw [Fills, List.append_assoc, List.take_append_of_le_length (by omega),
    List.drop_append_of_le_length (by omega), takeOpening.eq_def]
  dsimp only
  split_ifs with hnone hsize
  · rw [Nat.sub_eq_zero_of_le hnone]
    exact ⟨by simp, _, _, _, h, (List.append_assoc _ _ _).symm⟩
  · exact ⟨by rw [htaken], _, _, _, hleft, (List.append_assoc _ _ _).symm⟩
  · simp only [htaken, Array.size_append, List.size_toArray, List.length_take] at hsize
    omega

theorem Splits.takeOpening_used (h : c.Splits fs es bs) {out : Array Nat}
    (hadmits : EndAdmits c.front room) (hused : out.size + fs.length < room) :
    ∃ c' : Cursor, c'.Splits [] es bs ∧ c'.back = c.back ∧
      takeOpening room 0 out c = c'.takeFromBack room (out ++ fs.toArray) ∧
      ∀ n e, c'.entries[c'.start]? = some e → takeOpening room (n + 1) out c =
        takeOpening room n (out ++ fs.toArray)
          { c' with front := some (.ofEntry e), start := c'.start + 1 } := by
  obtain ⟨htaken, hleft⟩ := h.takeFront (hadmits.mono (Nat.sub_le room out.size))
  rw [List.take_of_length_le (by omega)] at htaken
  rw [List.drop_of_length_le (by omega)] at hleft
  have hsize : (out ++ fs.toArray).size = out.size + fs.length := by simp
  have hgo : ¬room ≤ out.size := by omega
  refine ⟨_, hleft, takeFront_back _ _, ?_, fun n e he => ?_⟩
  · rw [takeOpening.eq_def]
    simp only [htaken, hsize, if_neg hgo, if_neg (Nat.not_le.2 hused)]
  · rw [takeOpening.eq_def]
    simp only [htaken, hsize, if_neg hgo, if_neg (Nat.not_le.2 hused), he]

theorem Splits.takeOpening (h : c.Splits fs es bs) (hfront : EndAdmits c.front room)
    (hrest : ∀ e ∈ es, (ChunkCursor.ofChunk e.chunk).Admits room)
    (hback : EndAdmits c.back room) (out : Array Nat) :
    Fills room out (fs ++ listed es ++ bs) (takeOpening room es.length out c) := by
  -- each entry that is opened becomes the front, so `fs` and the slots filled change with it
  induction es generalizing c fs out with
  | nil =>
    rcases Nat.lt_or_ge (out.size + fs.length) room with hused | hfull
    · obtain ⟨c', hleft, hsame, hlast, -⟩ := h.takeOpening_used hfront hused
      rw [List.length_nil, hlast]
      have hfill := hleft.takeFromBack (hsame.symm ▸ hback) (out ++ fs.toArray)
      simpa [listed] using hfill.prepend hused.le
    · exact h.takeOpening_full hfront hfull 0
  | cons e es ih =>
    rcases Nat.lt_or_ge (out.size + fs.length) room with hused | hfull
    · obtain ⟨c', hleft, hsame, -, hnext⟩ := h.takeOpening_used hfront hused
      have hvalid := h.chunk_valid List.mem_cons_self
      have hopen := hleft.openFront (EntryCursor.holds_ofEntry hvalid) rfl
      rw [List.length_cons, hnext es.length e hleft.getElem?_start]
      have hfirst : EndAdmits (some (.ofEntry e)) room := by
        rintro f ⟨⟩
        exact hrest e List.mem_cons_self
      have hfill := ih hopen hfirst (fun e he => hrest e (List.mem_cons_of_mem _ he))
        (hsame.symm ▸ hback) (out ++ fs.toArray)
      simpa [listed] using hfill.prepend hused.le
    · exact h.takeOpening_full hfront hfull _

theorem Holds.nextMany (h : c.Holds xs) (hadmits : c.Admits room) :
    (c.nextMany room).1 = (xs.take room).toArray ∧ (c.nextMany room).2.Holds (xs.drop room) := by
  obtain ⟨fs, es, bs, h, rfl⟩ := h
  have hfill := h.takeOpening hadmits.front (h.rest ▸ hadmits.rest) hadmits.back #[]
  rw [Fills, Array.empty_append, Array.size_empty, Nat.sub_zero] at hfill
  rw [Cursor.nextMany, h.length_eq]
  exact hfill

theorem Queued.nextMany (h : c.Queued xs) (hadmits : c.Admits room) :
    (c.nextMany room).1 = (xs.take room).toArray ∧ (c.nextMany room).2.Queued (xs.drop room) := by
  obtain ⟨htaken, hleft⟩ := h.holds.nextMany hadmits
  exact ⟨htaken, hleft, h.sorted.sublist (List.drop_sublist _ _),
    fun v hv => h.lt v (List.mem_of_mem_drop hv)⟩

/-! Batches of at most 2^32 - 2^16 values are admitted by every cursor. -/

theorem Holds.admits (h : c.Holds xs) (hroom : chunkSize + room ≤ 4294967296) : c.Admits room := by
  obtain ⟨fs, es, bs, h, -⟩ := h
  refine ⟨h.front.admits hroom, fun e he => ?_, h.back.admits hroom⟩
  rw [h.rest] at he
  exact (ChunkCursor.holds_ofChunk (h.chunk_valid he)).admits hroom

end Cursor

end ChunkedSet
