import ChunkedSet.Proofs.Decode

/-!
# Two readings beside each other

Two readings that take the same steps end alike, unless the first one comes to the end of its source
and parts from the other. The steps are followed once, for any way of parting that a bind keeps and
any relation between the sources that taking and claiming bytes keep.
-/

namespace ChunkedSet

def DecodeError.isShortage : DecodeError → Bool
  | endOfInput => true
  | truncated _ _ => true
  | _ => false

variable {α β γ δ : Type} {R : α → β → Prop} {S : γ → δ → Prop}

def CutShort (x : Except DecodeError α) : Prop :=
  x = .error .endOfInput ∨ ∃ key, x = .error (.runOverflow key)

theorem CutShort.bind {x : Except DecodeError α} (h : CutShort x)
    (f : α → Except DecodeError β) : CutShort (x >>= f) := by
  rcases h with rfl | ⟨key, rfl⟩
  · exact .inl rfl
  · exact .inr ⟨key, rfl⟩

/-- The first reading may stop with an error of these where the second one ends as it does. -/
structure Parting where
  Parts {β : Type} (e : DecodeError) (y : Except DecodeError β) : Prop
  bind {β δ : Type} {e : DecodeError} {y : Except DecodeError β} (h : Parts e y)
    (g : β → Except DecodeError δ) : Parts e (y >>= g)

inductive Parting.Along (P : Parting) (R : α → β → Prop) :
    Except DecodeError α → Except DecodeError β → Prop
  | ok {a : α} {b : β} (h : R a b) : P.Along R (.ok a) (.ok b)
  | refused {e : DecodeError} (he : e.isShortage = false) : P.Along R (.error e) (.error e)
  | parted {e : DecodeError} {y : Except DecodeError β} (h : P.Parts e y) : P.Along R (.error e) y

namespace Parting.Along

variable {P : Parting} {x : Except DecodeError α} {y : Except DecodeError β}

theorem bind {f : α → Except DecodeError γ} {g : β → Except DecodeError δ} (h : P.Along R x y)
    (hnext : ∀ a b, R a b → P.Along S (f a) (g b)) : P.Along S (x >>= f) (y >>= g) := by
  cases h with
  | ok h => exact hnext _ _ h
  | refused he => exact .refused he
  | parted h => exact .parted (P.bind h g)

theorem mono {R' : α → β → Prop} (h : P.Along R x y) (hR : ∀ a b, R a b → R' a b) :
    P.Along R' x y := by
  cases h with
  | ok h => exact .ok (hR _ _ h)
  | refused he => exact .refused he
  | parted h => exact .parted h

theorem map {f : α → γ} {g : β → δ} (h : P.Along R x y) (hnext : ∀ a b, R a b → S (f a) (g b)) :
    P.Along S (x.map f) (y.map g) := by
  have hbind := h.bind (S := S) (f := fun a => .ok (f a)) (g := fun b => .ok (g b))
    fun a b hab => .ok (hnext a b hab)
  cases x <;> cases y <;> exact hbind

end Parting.Along

inductive SameResult (Beside : Source → Source → Prop) : α × Source → α × Source → Prop
  | intro (a : α) {s t : Source} (h : Beside s t) : SameResult Beside (a, s) (a, t)

/-- Sources of which two readings take the same steps, with a number of bytes claimed in both. Where
the claim of a section is refused, reading it all the same must fail in it. -/
structure Companions extends Parting where
  Beside (claimed : Nat) (s t : Source) : Prop
  take {claimed n : Nat} {s t : Source} (h : Beside (claimed + n) s t) :
    toParting.Along (SameResult (Beside claimed)) (s.take n) (t.take n)
  reserve {α β : Type} {R : α → β → Prop} {n : Nat} {s t : Source}
    {f : Source → Except DecodeError α} {g : Source → Except DecodeError β} (h : Beside 0 s t)
    (hfits : ∀ s t, Beside n s t → toParting.Along R (f s) (g t))
    (hshort : ∀ s : Source, s.bytes.length < n → CutShort (g s)) :
    toParting.Along R (s.reserve n >>= f) (t.reserve n >>= g)

namespace Source

variable {n : Nat} {s : Source}

theorem take_of_le (hn : n ≤ s.bytes.length) :
    s.take n = .ok (s.bytes.take n, { s with bytes := s.bytes.drop n }) := by
  rw [take, List.splitAt_eq]
  exact if_pos (List.length_take_of_le hn)

theorem take_of_lt (hn : s.bytes.length < n) : s.take n = .error .endOfInput := by
  have hlength : ¬(s.bytes.take n).length = n := by
    rw [List.length_take]
    omega
  rw [take, List.splitAt_eq]
  exact if_neg hlength

theorem nat16_bind (s : Source) (f : Nat × Source → Except DecodeError β) :
    s.nat16 >>= f = s.take 2 >>= fun r => f (Bytes.toNat r.1, r.2) := by
  rw [nat16_eq_take]
  cases s.take 2 <;> rfl

theorem nat32_bind (s : Source) (f : Nat × Source → Except DecodeError β) :
    s.nat32 >>= f = s.take 4 >>= fun r => f (Bytes.toNat r.1, r.2) := by
  rw [nat32_eq_take]
  cases s.take 4 <;> rfl

/-- Runs that are cut off fail at the end, or before it at a run that passes the last position. -/
theorem runs_short {key : Nat} {out : Array Run} (hn : s.bytes.length < 4 * n) :
    CutShort (runs key n s out) := by
  induction n generalizing s out with
  | zero => exact absurd hn (Nat.not_lt_zero _)
  | succ n ih =>
    simp only [runs, nat16_bind]
    by_cases hfirst : 2 ≤ s.bytes.length
    · rw [take_of_le hfirst]
      change CutShort (take _ 2 >>= _)
      by_cases hsecond : 2 ≤ (s.bytes.drop 2).length
      · rw [take_of_le hsecond]
        change CutShort (if _ then _ else _)
        split
        · exact .inr ⟨key, rfl⟩
        · apply ih
          simp only [List.length_drop] at hsecond ⊢
          omega
      · rw [take_of_lt (Nat.lt_of_not_le hsecond)]
        exact .inl rfl
    · rw [take_of_lt (Nat.lt_of_not_le hfirst)]
      exact .inl rfl

end Source

theorem Ledger.decode_eq_bind (l : Ledger) (mode : DecodeMode) (bytes : List UInt8) :
    (l.decode mode bytes).1 = (Source.ofBytes mode bytes).preamble >>= fun r =>
      (DecodeState.readEntries mode.isChecked r.1.flags
        (l.allocate (.vector 8 r.1.header.count)).1 r.1.header.count
        ⟨r.1.descriptions, #[], #[], r.2⟩ (l.allocate (.vector 8 r.1.header.count)).2).1 := by
  rw [decode]
  cases (Source.ofBytes mode bytes).preamble <;> rfl

theorem decodeWithRest_eq_map (mode : DecodeMode) (bytes : List UInt8) :
    decodeWithRest mode bytes =
      (Ledger.empty.decode mode bytes).1.map fun r => (r.1.set, r.2.bytes) := by
  rw [decodeWithRest]
  cases (Ledger.empty.decode mode bytes).1 <;> rfl

/-! The steps of two readings. -/

namespace Companions

variable {C : Companions} {s t : Source} {n key declared : Nat} {checked isRuns : Bool}

def Same (C : Companions) : α × Source → α × Source → Prop := SameResult (C.Beside 0)

theorem take_claimed (h : C.Beside n s t) : C.Along C.Same (s.take n) (t.take n) := by
  rw [← Nat.zero_add n] at h
  exact C.take h

theorem section_along {f : List UInt8 × Source → Except DecodeError α}
    {g : List UInt8 × Source → Except DecodeError β} (h : C.Beside 0 s t)
    (hnext : ∀ (head : List UInt8) (s t : Source), C.Beside 0 s t →
      C.Along R (f (head, s)) (g (head, t))) :
    C.Along R (s.reserve n >>= fun s => s.take n >>= f)
      (t.reserve n >>= fun t => t.take n >>= g) := by
  refine C.reserve h (fun s t h => ?_) fun s hshort => ?_
  · apply (take_claimed h).bind
    rintro _ _ ⟨head, h⟩
    exact hnext head _ _ h
  · rw [Source.take_of_lt hshort]
    exact .inl rfl

theorem readSection_along (h : C.Beside 0 s t) :
    C.Along C.Same (s.readSection n) (t.readSection n) := by
  refine C.reserve h (fun s t h => take_claimed h) fun s hshort => ?_
  rw [Source.take_of_lt hshort]
  exact .inl rfl

theorem header_along (h : C.Beside 0 s t) : C.Along C.Same s.header t.header := by
  simp only [Source.header, Source.nat32_bind]
  refine section_along h fun head s t h => ?_
  split
  · refine section_along h fun head s t h => ?_
    split
    · exact .refused rfl
    · exact .ok ⟨_, h⟩
  · split
    · exact .ok ⟨_, h⟩
    · exact .refused rfl

theorem skipOffsets_along {f : Source → Except DecodeError α} {g : Source → Except DecodeError β}
    (h : C.Beside 0 s t) (hnext : ∀ s t, C.Beside 0 s t → C.Along R (f s) (g t)) :
    C.Along R (s.skipOffsets n >>= f) (t.skipOffsets n >>= g) := by
  induction n generalizing s t with
  | zero => exact hnext s t h
  | succ n ih =>
    simp only [Source.skipOffsets, Source.nat32_bind, bind_assoc]
    exact section_along h fun _ _ _ h => ih h

theorem preamble_along (h : C.Beside 0 s t) : C.Along C.Same s.preamble t.preamble := by
  apply (header_along h).bind
  rintro _ _ ⟨header, h⟩
  apply (readSection_along h).bind
  rintro _ _ ⟨flags, h⟩
  apply (readSection_along h).bind
  rintro _ _ ⟨descriptions, h⟩
  dsimp only
  split
  · exact skipOffsets_along h fun s t h => .ok ⟨_, h⟩
  · exact .ok ⟨_, h⟩

theorem runs_along {out : Array Run} (h : C.Beside (4 * n) s t) :
    C.Along C.Same (s.runs key n out) (t.runs key n out) := by
  induction n generalizing s t out with
  | zero => exact .ok ⟨out, h⟩
  | succ n ih =>
    have h : C.Beside (4 * n + 2 + 2) s t := h
    simp only [Source.runs, Source.nat16_bind]
    apply (C.take h).bind
    rintro _ _ ⟨first, h⟩
    apply (C.take h).bind
    rintro _ _ ⟨length, h⟩
    dsimp only
    split
    · exact .refused rfl
    · exact ih h

theorem runChunk_along (h : C.Beside (4 * n) s t) :
    C.Along C.Same (s.runChunk checked key declared n) (t.runChunk checked key declared n) := by
  apply (runs_along h).bind
  rintro _ _ ⟨runs, h⟩
  dsimp only
  split
  · split
    · exact .refused rfl
    · split
      · exact .ok ⟨_, h⟩
      · exact .refused rfl
  · exact .ok ⟨_, h⟩

theorem payload_along (h : C.Beside 0 s t) :
    C.Along C.Same (s.payload checked isRuns key declared)
      (t.payload checked isRuns key declared) := by
  unfold Source.payload
  split
  · simp only [Source.runCount, Source.nat16_bind, bind_assoc]
    refine section_along h fun head s t h => ?_
    dsimp only
    split
    · exact .refused rfl
    · split
      · exact .refused rfl
      · rw [bind_assoc, bind_assoc]
        exact C.reserve h (fun s t h => runChunk_along h) fun s hshort =>
          (Source.runs_short hshort).bind _
  · split
    · refine section_along h fun head s t h => ?_
      dsimp only
      split
      · split
        · exact .refused rfl
        · exact .ok ⟨_, h⟩
      · exact .ok ⟨_, h⟩
    · refine section_along h fun head s t h => ?_
      dsimp only
      split
      · exact .refused rfl
      · exact .ok ⟨_, h⟩

theorem readChunk_along (l l' : Ledger) (h : C.Beside 0 s t) :
    C.Along (fun r q => C.Same (r.chunk, r.source) (q.chunk, q.source))
      (l.readChunk checked isRuns key declared s).1
      (l'.readChunk checked isRuns key declared t).1 := by
  obtain ⟨buffer, hread⟩ := l.readChunk_eq checked isRuns key declared s
  obtain ⟨buffer', hread'⟩ := l'.readChunk_eq checked isRuns key declared t
  rw [hread, hread']
  exact (payload_along h).map fun _ _ h => h

def SameSet (C : Companions) (r q : HeldSet × Source) : Prop := C.Same (r.1.set, r.2) (q.1.set, q.2)

theorem readEntries_along {flags : Array UInt8} {frame frame' : Buffer}
    {descriptions : List UInt8} {entries : Array Entry} {buffers buffers' : Array Buffer}
    {l l' : Ledger} (h : C.Beside 0 s t) :
    C.Along C.SameSet
      (DecodeState.readEntries checked flags frame n ⟨descriptions, entries, buffers, s⟩ l).1
      (DecodeState.readEntries checked flags frame' n ⟨descriptions, entries, buffers', t⟩ l').1 := by
  induction n generalizing descriptions entries buffers buffers' s t l l' with
  | zero => exact .ok ⟨_, h⟩
  | succ n ih =>
    cases hdescription : DecodeState.description? ⟨descriptions, entries, buffers, s⟩ with
    | none =>
      have hsame : DecodeState.description? ⟨descriptions, entries, buffers', t⟩ = none :=
        hdescription
      rw [DecodeState.readEntries, DecodeState.readEntries, hdescription, hsame]
      exact .ok ⟨_, h⟩
    | some r =>
      obtain ⟨⟨key, declared⟩, rest⟩ := r
      have hsame : DecodeState.description? ⟨descriptions, entries, buffers', t⟩ =
          some ((key, declared), rest) := hdescription
      by_cases hback : ∀ e ∈ entries.back?, e.key < key
      · rw [DecodeState.readEntries_eq_bind hdescription hback,
          DecodeState.readEntries_eq_bind hsame hback]
        apply (readChunk_along l l' h).bind
        intro r q h
        obtain ⟨chunk, buffer, source⟩ := r
        obtain ⟨chunk', buffer', source'⟩ := q
        cases h with
        | intro _ h => exact ih h
      · rw [DecodeState.readEntries_unsorted hdescription hback,
          DecodeState.readEntries_unsorted hsame hback]
        exact .refused rfl

theorem decode_along (l l' : Ledger) {mode mode' : DecodeMode} {bytes bytes' : List UInt8}
    (hchecked : mode.isChecked = mode'.isChecked)
    (h : C.Beside 0 (.ofBytes mode bytes) (.ofBytes mode' bytes')) :
    C.Along C.SameSet (l.decode mode bytes).1 (l'.decode mode' bytes').1 := by
  rw [Ledger.decode_eq_bind, Ledger.decode_eq_bind, ← hchecked]
  apply (preamble_along h).bind
  rintro _ _ ⟨preamble, h⟩
  exact readEntries_along h

theorem decodeWithRest_along {mode mode' : DecodeMode} {bytes bytes' : List UInt8}
    (hchecked : mode.isChecked = mode'.isChecked)
    (h : C.Beside 0 (.ofBytes mode bytes) (.ofBytes mode' bytes')) :
    C.Along (fun r q => r.1 = q.1 ∧ ∃ s t, C.Beside 0 s t ∧ r.2 = s.bytes ∧ q.2 = t.bytes)
      (decodeWithRest mode bytes) (decodeWithRest mode' bytes') := by
  rw [decodeWithRest_eq_map, decodeWithRest_eq_map]
  refine (decode_along .empty .empty hchecked h).map fun r q h => ?_
  obtain ⟨⟨set, frame, buffers⟩, source⟩ := r
  obtain ⟨⟨set', frame', buffers'⟩, source'⟩ := q
  cases h with
  | intro _ h => exact ⟨rfl, _, _, h, rfl, rfl⟩

end Companions

end ChunkedSet
