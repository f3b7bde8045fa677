import ChunkedSet.Proofs.EntryCursor
import ChunkedSet.Proofs.SetDenotes

/-!
# Cursors over a set

What a cursor has left: the values of its front, those of the untouched entries, and those of its
back. The keys of the three parts increase, so a step that leaves one part alone knows on which
side of it every other value lies.
-/

namespace ChunkedSet

/-- An end has the values of `xs` left; an end that is not open has none. -/
def EndHolds : Option EntryCursor → List Nat → Prop
  | none, xs => xs = []
  | some c, xs => c.Holds xs

namespace EndHolds

variable {o : Option EntryCursor} {xs : List Nat} {v : Nat}

theorem size (h : EndHolds o xs) : o.elim 0 EntryCursor.size = xs.length := by
  cases o with
  | none => simp [show xs = [] from h]
  | some c => exact EntryCursor.Holds.size h

theorem peek? (h : EndHolds o xs) : o.bind EntryCursor.peek? = xs.head? := by
  cases o with
  | none => simp [show xs = [] from h]
  | some c => exact EntryCursor.Holds.peek? h

theorem peekBack? (h : EndHolds o xs) : o.bind EntryCursor.peekBack? = xs.getLast? := by
  cases o with
  | none => simp [show xs = [] from h]
  | some c => exact EntryCursor.Holds.peekBack? h

theorem fold {β : Type} (h : EndHolds o xs) (f : β → Nat → β) (acc : β) :
    o.elim acc (EntryCursor.fold f acc) = xs.foldl f acc := by
  cases o with
  | none => simp [show xs = [] from h]
  | some c => exact EntryCursor.Holds.fold h f acc

theorem foldBack {β : Type} (h : EndHolds o xs) (f : β → Nat → β) (acc : β) :
    o.elim acc (EntryCursor.foldBack f acc) = xs.reverse.foldl f acc := by
  cases o with
  | none => simp [show xs = [] from h]
  | some c => exact EntryCursor.Holds.foldBack h f acc

theorem exists_key (h : EndHolds o xs) (hv : v ∈ xs) : ∃ c ∈ o, c.key = keyOf v := by
  cases o with
  | none => simp [show xs = [] from h] at hv
  | some c => exact ⟨c, rfl, (EntryCursor.Holds.keyOf_eq h hv).symm⟩

end EndHolds

namespace Cursor

def listed (es : List Entry) : List Nat := es.flatMap Entry.toList

def keys (c : Cursor) (es : List Entry) : List Nat :=
  c.front.toList.map EntryCursor.key ++ es.map Entry.key ++ c.back.toList.map EntryCursor.key

/-- The cursor has the entries `es` untouched, the values of `fs` before and those of `bs` behind
them. -/
structure Splits (c : Cursor) (fs : List Nat) (es : List Entry) (bs : List Nat) : Prop where
  valid : IntSet.Valid ⟨c.entries⟩
  spans : Spans c.entries c.start c.stop es
  front : EndHolds c.front fs
  back : EndHolds c.back bs
  keys : (c.keys es).Pairwise (· < ·)

def Holds (c : Cursor) (xs : List Nat) : Prop :=
  ∃ fs es bs, c.Splits fs es bs ∧ xs = fs ++ listed es ++ bs

variable {c : Cursor} {s : IntSet} {fs bs xs : List Nat} {es : List Entry} {e : Entry}

theorem holds_ofSet (h : s.Valid) : (ofSet s).Holds s.toList := by
  refine ⟨[], s.entries.toList, [], ⟨h, .all s.entries, rfl, rfl, ?_⟩, ?_⟩
  · simpa [Cursor.keys, ofSet, IntSet.keys] using h.1
  · simp [listed, IntSet.toList]

theorem holds_empty : Cursor.empty.Holds [] := holds_ofSet IntSet.empty_wellFormed.valid

/-! The untouched entries. -/

theorem Splits.mem_entries (h : c.Splits fs es bs) (he : e ∈ es) : e ∈ c.entries.toList :=
  h.spans.sublist.subset he

theorem Splits.chunk_valid (h : c.Splits fs es bs) (he : e ∈ es) : e.chunk.Valid :=
  (h.valid.2 e (h.mem_entries he)).2.1

theorem Splits.toList_ne_nil (h : c.Splits fs es bs) (he : e ∈ es) : e.toList ≠ [] := by
  have hne := (h.chunk_valid he).toList_ne_nil (h.valid.2 e (h.mem_entries he)).2.2
  simpa [Entry.toList] using hne

theorem Splits.entry_size (h : c.Splits fs es bs) (he : e ∈ es) : e.size = e.toList.length := by
  obtain ⟨S, hden⟩ := (h.chunk_valid he).denotes
  rw [Entry.size, hden.size, Entry.toList, List.length_map, hden.toList_eq_sort, Finset.length_sort]

theorem Splits.length_eq (h : c.Splits fs es bs) : c.stop - c.start = es.length := by
  rw [h.spans.stop_eq, Nat.add_sub_cancel_left]

theorem Splits.getElem?_start (h : c.Splits fs (e :: es) bs) : c.entries[c.start]? = some e :=
  h.spans.getElem? (Nat.zero_lt_succ _)

theorem Splits.stop_pred (h : c.Splits fs (es ++ [e]) bs) : c.stop - 1 = c.start + es.length := by
  have hstop := h.spans.stop_eq
  rw [List.length_append, List.length_singleton] at hstop
  omega

theorem Splits.getElem?_stop (h : c.Splits fs (es ++ [e]) bs) :
    c.entries[c.stop - 1]? = some e := by
  rw [h.stop_pred, h.spans.getElem? (by simp), List.getElem?_append_right (Nat.le_refl _), Nat.sub_self]
  rfl

/-! The parts change one at a time. -/

theorem Splits.closeFront (h : c.Splits fs es bs) : Splits { c with front := none } [] es bs :=
  ⟨h.valid, h.spans, rfl, h.back, h.keys.sublist
    (((List.nil_sublist _).append_right _).append_right _)⟩

theorem Splits.closeBack (h : c.Splits fs es bs) : Splits { c with back := none } fs es [] :=
  ⟨h.valid, h.spans, h.front, rfl, h.keys.sublist ((List.nil_sublist _).append_left _)⟩

theorem Splits.setFront (h : c.Splits fs es bs) {f f' : EntryCursor} {fs' : List Nat}
    (hfront : c.front = some f) (hf : f'.Holds fs') (hkey : f'.key = f.key) :
    Splits { c with front := some f' } fs' es bs := by
  refine ⟨h.valid, h.spans, hf, h.back, ?_⟩
  simpa only [Cursor.keys, hfront, Option.toList_some, List.map_cons, hkey] using h.keys

theorem Splits.setBack (h : c.Splits fs es bs) {b b' : EntryCursor} {bs' : List Nat}
    (hback : c.back = some b) (hb : b'.Holds bs') (hkey : b'.key = b.key) :
    Splits { c with back := some b' } fs es bs' := by
  refine ⟨h.valid, h.spans, h.front, hb, ?_⟩
  simpa only [Cursor.keys, hback, Option.toList_some, List.map_cons, hkey] using h.keys

theorem Splits.dropEntries (h : c.Splits fs es bs) {n : Nat} (hn : n ≤ es.length) :
    Splits { c with start := c.start + n } fs (es.drop n) bs :=
  ⟨h.valid, h.spans.drop hn, h.front, h.back, h.keys.sublist
    ((((List.drop_sublist n es).map _).append_left _).append_right _)⟩

theorem Splits.takeEntries (h : c.Splits fs es bs) {n : Nat} (hn : n ≤ es.length) :
    Splits { c with stop := c.start + n } fs (es.take n) bs :=
  ⟨h.valid, h.spans.take hn, h.front, h.back, h.keys.sublist
    ((((List.take_sublist n es).map _).append_left _).append_right _)⟩

theorem Splits.openFront (h : c.Splits fs (e :: es) bs) {f : EntryCursor} {fs' : List Nat}
    (hf : f.Holds fs') (hkey : f.key = e.key) :
    Splits { c with front := some f, start := c.start + 1 } fs' es bs := by
  refine ⟨h.valid, h.spans.drop (Nat.succ_pos _), hf, h.back, h.keys.sublist ?_⟩
  simp [Cursor.keys, hkey]

theorem Splits.openBack (h : c.Splits fs (es ++ [e]) bs) {b : EntryCursor} {bs' : List Nat}
    (hb : b.Holds bs') (hkey : b.key = e.key) :
    Splits { c with back := some b, stop := c.stop - 1 } fs es bs' := by
  have htake := h.spans.take (n := es.length) (by simp)
  rw [List.take_left, ← h.stop_pred] at htake
  refine ⟨h.valid, htake, h.front, hb, h.keys.sublist ?_⟩
  simp [Cursor.keys, hkey]

/-! Taking values from the front. -/

theorem Splits.nextFromBack (h : c.Splits fs [] bs) :
    c.nextFromBack.1 = bs.head? ∧ c.nextFromBack.2.Holds bs.tail := by
  obtain ⟨front, entries, start, stop, _ | b⟩ := c
  · obtain rfl : bs = [] := h.back
    exact ⟨rfl, _, _, _, h.closeFront, rfl⟩
  · have hb : b.Holds bs := h.back
    exact ⟨hb.next.1, _, _, _, h.closeFront.setBack rfl hb.next.2 rfl, rfl⟩

theorem Splits.nextOpening_cons {v n : Nat} (h : c.Splits (v :: fs) es bs) :
    (nextOpening n c).1 = some v ∧ (nextOpening n c).2.Splits fs es bs := by
  obtain ⟨_ | f, entries, start, stop, back⟩ := c
  · exact absurd h.front (List.cons_ne_nil v fs)
  · have hf : f.Holds (v :: fs) := h.front
    obtain ⟨hhead, htail⟩ := hf.next
    have hset := h.setFront rfl htail rfl
    rw [nextOpening.eq_def]
    simp only [Option.map_some]
    rw [← Prod.mk.eta (p := f.next), hhead]
    exact ⟨rfl, hset⟩

theorem Splits.nextOpening_nil {n : Nat} (h : c.Splits [] es bs) :
    nextOpening n c =
      match n with
      | 0 => c.nextFromBack
      | n + 1 =>
        match c.entries[c.start]? with
        | some e => nextOpening n { c with front := some (.ofEntry e), start := c.start + 1 }
        | none => c.nextFromBack := by
  obtain ⟨_ | f, entries, start, stop, back⟩ := c
  · rw [nextOpening.eq_def]
    rfl
  · have hf : f.Holds [] := h.front
    obtain ⟨hhead, -⟩ := hf.next
    rw [nextOpening.eq_def]
    simp only [Option.map_some]
    rw [← Prod.mk.eta (p := f.next), hhead]
    rfl

theorem Splits.nextOpening (h : c.Splits fs es bs) :
    (nextOpening es.length c).1 = (fs ++ listed es ++ bs).head? ∧
      (nextOpening es.length c).2.Holds (fs ++ listed es ++ bs).tail := by
  induction es generalizing c fs with
  | nil =>
    cases fs with
    | nil =>
      rw [h.nextOpening_nil]
      exact h.nextFromBack
    | cons v fs =>
      obtain ⟨hhead, htail⟩ := h.nextOpening_cons (n := 0)
      exact ⟨hhead, _, _, _, htail, rfl⟩
  | cons e es ih =>
    cases fs with
    | nil =>
      have hopen := h.openFront (EntryCursor.holds_ofEntry (h.chunk_valid List.mem_cons_self)) rfl
      rw [h.nextOpening_nil, h.getElem?_start]
      simpa [listed] using ih hopen
    | cons v fs =>
      obtain ⟨hhead, htail⟩ := h.nextOpening_cons (n := es.length + 1)
      exact ⟨hhead, _, _, _, htail, rfl⟩

theorem Holds.next (h : c.Holds xs) : c.next.1 = xs.head? ∧ c.next.2.Holds xs.tail := by
  obtain ⟨fs, es, bs, h, rfl⟩ := h
  rw [Cursor.next, h.length_eq]
  exact h.nextOpening

/-! Taking values from the back. -/

theorem Splits.nextBackFromFront (h : c.Splits fs [] []) :
    c.nextBackFromFront.1 = fs.getLast? ∧ c.nextBackFromFront.2.Holds fs.dropLast := by
  obtain ⟨_ | f, entries, start, stop, back⟩ := c
  · obtain rfl : fs = [] := h.front
    exact ⟨rfl, _, _, _, h.closeBack, rfl⟩
  · have hf : f.Holds fs := h.front
    refine ⟨hf.nextBack.1, _, _, _, h.closeBack.setFront rfl hf.nextBack.2 rfl, ?_⟩
    simp [listed]

theorem Splits.nextBackOpening_concat {v n : Nat} (h : c.Splits fs es (bs ++ [v])) :
    (nextBackOpening n c).1 = some v ∧ (nextBackOpening n c).2.Splits fs es bs := by
  obtain ⟨front, entries, start, stop, _ | b⟩ := c
  · exact absurd h.back (by simp [EndHolds])
  · have hb : b.Holds (bs ++ [v]) := h.back
    obtain ⟨hlast, hinit⟩ := hb.nextBack
    rw [List.getLast?_concat] at hlast
    rw [List.dropLast_concat] at hinit
    have hset := h.setBack rfl hinit rfl
    rw [nextBackOpening.eq_def]
    simp only [Option.map_some]
    rw [← Prod.mk.eta (p := b.nextBack), hlast]
    exact ⟨rfl, hset⟩

theorem Splits.nextBackOpening_nil {n : Nat} (h : c.Splits fs es []) :
    nextBackOpening n c =
      match n with
      | 0 => c.nextBackFromFront
      | n + 1 =>
        match c.entries[c.stop - 1]? with
        | some e => nextBackOpening n { c with back := some (.ofEntry e), stop := c.stop - 1 }
        | none => c.nextBackFromFront := by
  obtain ⟨front, entries, start, stop, _ | b⟩ := c
  · rw [nextBackOpening.eq_def]
    rfl
  · have hb : b.Holds [] := h.back
    obtain ⟨hlast, -⟩ := hb.nextBack
    rw [nextBackOpening.eq_def]
    simp only [Option.map_some]
    rw [← Prod.mk.eta (p := b.nextBack), hlast]
    rfl

theorem Splits.nextBackOpening (h : c.Splits fs es bs) :
    (nextBackOpening es.length c).1 = (fs ++ listed es ++ bs).getLast? ∧
      (nextBackOpening es.length c).2.Holds (fs ++ listed es ++ bs).dropLast := by
  induction es using List.reverseRecOn generalizing c bs with
  | nil =>
    rcases List.eq_nil_or_concat bs with rfl | ⟨bs, v, rfl⟩
    · rw [h.nextBackOpening_nil]
      simpa [listed] using h.nextBackFromFront
    · rw [List.concat_eq_append] at *
      obtain ⟨hlast, hinit⟩ := h.nextBackOpening_concat (n := 0)
      simp only [← List.append_assoc, List.getLast?_concat, List.dropLast_concat]
      exact ⟨hlast, _, _, _, hinit, rfl⟩
  | append_singleton es e ih =>
    rcases List.eq_nil_or_concat bs with rfl | ⟨bs, v, rfl⟩
    · have hopen := h.openBack (EntryCursor.holds_ofEntry (h.chunk_valid (by simp))) rfl
      rw [h.nextBackOpening_nil, List.length_append, List.length_singleton, h.getElem?_stop]
      simpa [listed] using ih hopen
    · rw [List.concat_eq_append] at *
      obtain ⟨hlast, hinit⟩ := h.nextBackOpening_concat (n := (es ++ [e]).length)
      simp only [← List.append_assoc, List.getLast?_concat, List.dropLast_concat]
      exact ⟨hlast, _, _, _, hinit, rfl⟩

theorem Holds.nextBack (h : c.Holds xs) :
    c.nextBack.1 = xs.getLast? ∧ c.nextBack.2.Holds xs.dropLast := by
  obtain ⟨fs, es, bs, h, rfl⟩ := h
  rw [Cursor.nextBack, h.length_eq]
  exact h.nextBackOpening

/-! Looking at what is left without taking it. -/

theorem Splits.firstEntry? (h : c.Splits fs es bs) : c.firstEntry? = es.head? := by
  have hstop := h.spans.stop_eq
  rw [Cursor.firstEntry?]
  cases es with
  | nil => simp [hstop]
  | cons e es =>
    rw [h.getElem?_start, if_pos (by simp [hstop])]
    rfl

theorem Splits.lastEntry? (h : c.Splits fs es bs) : c.lastEntry? = es.getLast? := by
  have hstop := h.spans.stop_eq
  rw [Cursor.lastEntry?]
  rcases List.eq_nil_or_concat es with rfl | ⟨es, e, rfl⟩
  · simp [hstop]
  · rw [List.concat_eq_append] at *
    rw [h.getElem?_stop, if_pos (by simp [hstop]), List.getLast?_concat]

theorem Splits.min?_eq (h : c.Splits fs es bs) (he : e ∈ es) :
    e.chunk.min?.map e.value = e.toList.head? := by
  rw [(h.chunk_valid he).min?_eq, Entry.toList, List.head?_map]

theorem Splits.max?_eq (h : c.Splits fs es bs) (he : e ∈ es) :
    e.chunk.max?.map e.value = e.toList.getLast? := by
  rw [(h.chunk_valid he).max?_eq, Entry.toList, List.getLast?_map]

theorem Splits.head?_listed (h : c.Splits fs es bs) :
    (c.firstEntry?.bind fun e => e.chunk.min?.map e.value) = (listed es).head? := by
  rw [h.firstEntry?]
  cases es with
  | nil => rfl
  | cons e es =>
    have hne := h.toList_ne_nil List.mem_cons_self
    rw [List.head?_cons, Option.bind_some, h.min?_eq List.mem_cons_self, listed, List.flatMap_cons,
      List.head?_append_of_ne_nil _ hne]

theorem Splits.getLast?_listed (h : c.Splits fs es bs) :
    (c.lastEntry?.bind fun e => e.chunk.max?.map e.value) = (listed es).getLast? := by
  rw [h.lastEntry?]
  rcases List.eq_nil_or_concat es with rfl | ⟨es, e, rfl⟩
  · rfl
  · rw [List.concat_eq_append] at *
    have hlast : e ∈ es ++ [e] := by simp
    have hne := h.toList_ne_nil hlast
    rw [List.getLast?_concat, Option.bind_some, h.max?_eq hlast, listed, List.flatMap_append,
      List.flatMap_singleton, List.getLast?_append_of_ne_nil _ hne]

theorem Holds.peek? (h : c.Holds xs) : c.peek? = xs.head? := by
  obtain ⟨fs, es, bs, h, rfl⟩ := h
  rw [Cursor.peek?, h.front.peek?, h.back.peek?, h.head?_listed, List.head?_append,
    List.head?_append, Option.or_assoc]

theorem Holds.peekBack? (h : c.Holds xs) : c.peekBack? = xs.getLast? := by
  obtain ⟨fs, es, bs, h, rfl⟩ := h
  rw [Cursor.peekBack?, h.front.peekBack?, h.back.peekBack?, h.getLast?_listed, List.getLast?_append,
    List.getLast?_append]

theorem Splits.rest (h : c.Splits fs es bs) : c.rest.toList = es := h.spans.toList_extract

theorem Holds.size (h : c.Holds xs) : c.size = xs.length := by
  obtain ⟨fs, es, bs, h, rfl⟩ := h
  have hsum : (es.map Entry.size).sum = (listed es).length := by
    rw [listed, List.length_flatMap]
    exact congrArg List.sum (List.map_congr_left fun e he => h.entry_size he)
  rw [Cursor.size, h.front.size, h.back.size, ← Array.foldl_toList, h.rest, Words.foldl_add_eq_sum,
    hsum, List.length_append, List.length_append]
  omega

theorem Holds.fold {β : Type} (h : c.Holds xs) (f : β → Nat → β) (acc : β) :
    c.fold f acc = xs.foldl f acc := by
  obtain ⟨fs, es, bs, h, rfl⟩ := h
  have hrest : ∀ acc, es.foldl (fun acc e => (EntryCursor.ofEntry e).fold f acc) acc =
      (listed es).foldl f acc := by
    intro acc
    rw [listed, List.foldl_flatMap]
    apply List.foldl_ext
    intro acc e he
    exact (EntryCursor.holds_ofEntry (h.chunk_valid he)).fold f acc
  rw [Cursor.fold, h.front.fold, ← Array.foldl_toList, h.rest, hrest, h.back.fold, List.foldl_append,
    List.foldl_append]

theorem Holds.foldBack {β : Type} (h : c.Holds xs) (f : β → Nat → β) (acc : β) :
    c.foldBack f acc = xs.reverse.foldl f acc := by
  obtain ⟨fs, es, bs, h, rfl⟩ := h
  have hrest : ∀ acc, es.foldr (fun e acc => (EntryCursor.ofEntry e).foldBack f acc) acc =
      (listed es).reverse.foldl f acc := by
    intro acc
    rw [List.foldl_reverse, listed, List.foldr_flatMap]
    apply List.foldr_ext
    intro e he acc
    rw [(EntryCursor.holds_ofEntry (h.chunk_valid he)).foldBack f acc, List.foldl_reverse]
  rw [Cursor.foldBack, h.back.foldBack, ← Array.foldr_toList, h.rest, hrest, h.front.foldBack,
    List.reverse_append, List.reverse_append, List.foldl_append, List.foldl_append]

end Cursor

end ChunkedSet
