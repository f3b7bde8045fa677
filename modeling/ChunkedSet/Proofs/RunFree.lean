import ChunkedSet.Proofs.Plain
import ChunkedSet.Proofs.SetRanges
import ChunkedSet.Proofs.SetTrim

/-!
# Operations that make no runs

Runs come into a set through ranges that are inserted or complemented, through a change of
representation, or with the bytes it is read from. All other operations, on single values, at the
ends, on keys and on several sets, leave sets without runs if they are given such sets.
-/

namespace ChunkedSet

variable {c d : Chunk} {p lo hi n v : Nat}

namespace Chunk

theorem isRuns_settlePlain (c : Chunk) : c.settlePlain.isRuns = false := by
  rw [settlePlain]
  split
  · cases c <;> rfl
  · rfl

theorem isRuns_settle (h : c.isRuns = false) : c.settle.isRuns = false := by
  rw [settle]
  split
  · exact h
  · exact isRuns_settlePlain c

theorem isRuns_settleIf (changed : Bool) (h : c.isRuns = false) :
    (c.settleIf changed).isRuns = false := by
  rw [settleIf]
  split
  · exact isRuns_settle h
  · exact h

theorem isRuns_cases {f : Chunk → Chunk} (harray : ∀ a, (f (array a)).isRuns = false)
    (hblock : ∀ b, (f (block b)).isRuns = false) (h : c.isRuns = false) : (f c).isRuns = false := by
  cases c with
  | array a => exact harray a
  | block b => exact hblock b
  | runs l => cases h

theorem isRuns_insert (h : c.isRuns = false) : (c.insert p).1.isRuns = false :=
  isRuns_cases (f := fun c => (c.insert p).1) (fun _ => isRuns_settleIf _ rfl)
    (fun _ => isRuns_settleIf _ rfl) h

theorem isRuns_erase (h : c.isRuns = false) : (c.erase p).1.isRuns = false :=
  isRuns_cases (f := fun c => (c.erase p).1) (fun _ => isRuns_settleIf _ rfl)
    (fun _ => isRuns_settleIf _ rfl) h

theorem isRuns_push (h : c.isRuns = false) : (c.push p).1.isRuns = false :=
  isRuns_cases (f := fun c => (c.push p).1) (fun _ => isRuns_settleIf _ rfl)
    (fun _ => isRuns_settleIf _ rfl) h

theorem isRuns_append (h : c.isRuns = false) : (c.append p).isRuns = false :=
  isRuns_cases (f := fun c => c.append p) (fun _ => isRuns_settle rfl) (fun _ => isRuns_settle rfl) h

theorem isRuns_eraseRange (h : c.isRuns = false) : (c.eraseRange lo hi).1.isRuns = false :=
  isRuns_cases (f := fun c => (c.eraseRange lo hi).1) (fun _ => isRuns_settle rfl)
    (fun _ => isRuns_settle rfl) h

theorem isRuns_dropSmallest (h : c.isRuns = false) : (c.dropSmallest n).isRuns = false :=
  isRuns_cases (f := fun c => c.dropSmallest n) (fun _ => isRuns_settle rfl)
    (fun _ => isRuns_settle rfl) h

theorem isRuns_dropBiggest (h : c.isRuns = false) : (c.dropBiggest n).isRuns = false :=
  isRuns_cases (f := fun c => c.dropBiggest n) (fun _ => isRuns_settle rfl)
    (fun _ => isRuns_settle rfl) h

theorem isRuns_ofRange_self (p : Nat) : (ofRange p p).isRuns = false := by
  have hlong : ¬runBytes 1 < plainBytes (p - p + 1) := by
    rw [Nat.sub_self]
    decide
  rw [ofRange, if_neg hlong]
  rfl

end Chunk

/-! What holds of all elements of an array. -/

section Elements

variable {α β : Type} {Q : α → Prop} {xs : Array α} {x blank : α}

theorem forall_mem_insertIdx (h : ∀ y ∈ xs, Q y) (i : Nat) (hx : Q x) :
    ∀ y ∈ xs.insertIdxIfInBounds i x, Q y := by
  rw [Array.insertIdxIfInBounds]
  split
  · intro y hy
    rcases Array.mem_insertIdx.1 hy with rfl | hy
    · exact hx
    · exact h y hy
  · exact h

theorem forall_mem_push (h : ∀ y ∈ xs, Q y) (hx : Q x) : ∀ y ∈ xs.push x, Q y := by
  intro y hy
  rcases Array.mem_push.1 hy with hy | rfl
  · exact h y hy
  · exact hx

theorem forall_mem_updateAt (h : ∀ y ∈ xs, Q y) (i : Nat) (hblank : Q blank) (missing : β)
    {f : α → α × β} (hf : ∀ y, Q y → Q (f y).1) :
    ∀ y ∈ (updateAt xs i blank missing f).1, Q y := by
  rw [updateAt]
  split
  · rename_i hi
    intro y hy
    rcases Array.mem_or_eq_of_mem_setIfInBounds hy with hy | rfl
    · rcases Array.mem_or_eq_of_mem_set (w := hi) hy with hy | rfl
      · exact h y hy
      · exact hblank
    · exact hf _ (h _ (Array.getElem_mem hi))
  · exact h

theorem forall_mem_changeOrInsert (h : ∀ y ∈ xs, Q y) (key : α → Nat) (k : Nat) (hblank : Q blank)
    {f : α → α} (hf : ∀ y, Q y → Q (f y)) (hx : Q x) :
    ∀ y ∈ Segment.changeOrInsert key xs k blank f x, Q y := by
  rw [Segment.changeOrInsert]
  split
  · split
    · exact forall_mem_updateAt h _ hblank () hf
    · exact forall_mem_insertIdx h _ hx
  · exact forall_mem_push h hx

end Elements

def RunFree (entries : Array Entry) : Prop := ∀ e ∈ entries, e.chunk.isRuns = false

namespace RunFree

variable {xs ys : Array Entry} {e : Entry}

theorem empty : RunFree #[] := fun e he => absurd he (Array.not_mem_empty e)

theorem push (h : RunFree xs) (he : e.chunk.isRuns = false) : RunFree (xs.push e) :=
  forall_mem_push h he

theorem pushNonempty (h : RunFree xs) (he : e.chunk.isRuns = false) :
    RunFree (Entry.pushNonempty xs e) := by
  rw [Entry.pushNonempty]
  split
  · exact h
  · exact h.push he

theorem append (hxs : RunFree xs) (hys : RunFree ys) : RunFree (xs ++ ys) := by
  intro f hf
  rcases Array.mem_append.1 hf with hf | hf
  · exact hxs f hf
  · exact hys f hf

theorem of_subset (h : RunFree ys) (hsub : ∀ f ∈ xs, f ∈ ys) : RunFree xs :=
  fun f hf => h f (hsub f hf)

theorem extract (h : RunFree xs) (i j : Nat) : RunFree (xs.extract i j) := by
  refine h.of_subset fun f hf => ?_
  obtain ⟨k, hk, rfl⟩ := Array.mem_extract_iff_getElem.1 hf
  exact Array.getElem_mem _

theorem filter (h : RunFree xs) (keep : Entry → Bool) : RunFree (xs.filter keep) :=
  h.of_subset fun _ hf => (Array.mem_filter.1 hf).1

theorem insertIdx (h : RunFree xs) (i : Nat) (he : e.chunk.isRuns = false) :
    RunFree (xs.insertIdxIfInBounds i e) :=
  forall_mem_insertIdx h i he

theorem eraseIdx (h : RunFree xs) (i : Nat) : RunFree (xs.eraseIdxIfInBounds i) := by
  rw [Array.eraseIdxIfInBounds]
  split
  · exact h.of_subset fun _ hf => Array.mem_of_mem_eraseIdx hf
  · exact h

theorem update {β : Type} (h : RunFree xs) (i : Nat) (missing : β) {f : Chunk → Chunk × β}
    (hf : ∀ c : Chunk, c.isRuns = false → (f c).1.isRuns = false) :
    RunFree (ChunkedSet.updateAt xs i .blank missing (Entry.update f)).1 :=
  forall_mem_updateAt h i rfl missing (f := Entry.update f) fun e he => hf e.chunk he

theorem toArray {list : List Entry} (h : ∀ e ∈ list, e.chunk.isRuns = false) :
    RunFree list.toArray :=
  fun e he => h e (List.mem_toArray.1 he)

theorem mem_toList (h : RunFree xs) : ∀ e ∈ xs.toList, e.chunk.isRuns = false :=
  fun e he => h e (Array.mem_toList_iff.1 he)

end RunFree

namespace IntSet

variable {s t : IntSet} {values : List Nat}

/-! Single values. -/

theorem runFree_withKey (h : RunFree s.entries) (key : Nat) : RunFree (s.withKey key).1.entries := by
  rw [withKey]
  split
  · exact h
  · exact h.insertIdx _ rfl

theorem runFree_insertAt (h : RunFree s.entries) (place p : Nat) :
    RunFree (s.insertAt place p).1.entries :=
  h.update place false fun _ hc => Chunk.isRuns_insert hc

theorem runFree_insert (h : RunFree s.entries) (v : Nat) : RunFree (s.insert v).1.entries :=
  runFree_insertAt (runFree_withKey h _) _ _

theorem runFree_erase (h : RunFree s.entries) (v : Nat) : RunFree (s.erase v).1.entries := by
  rw [erase]
  split
  · rename_i place _
    have hupdate := h.update place (false, false) (f := fun c => ((c.erase (positionOf v)).1,
      (c.erase (positionOf v)).2, (c.erase (positionOf v)).1.isEmpty))
      fun _ hc => Chunk.isRuns_erase hc
    dsimp only
    split
    · exact hupdate.eraseIdx place
    · exact hupdate
  · exact h

theorem runFree_push (h : RunFree s.entries) (v : Nat) : RunFree (s.push v).1.entries := by
  have hnew := h.push (e := .single (keyOf v) (positionOf v)) (Chunk.isRuns_ofRange_self _)
  rw [push]
  split
  · split
    · exact h
    · split
      · exact h.update _ false fun _ hc => Chunk.isRuns_push hc
      · exact hnew
  · exact hnew

theorem runFree_append (h : RunFree s.entries) (v : Nat) : RunFree (s.append v).entries := by
  rw [append]
  split
  · exact h.update _ () (f := fun c => (c.append (positionOf v), ()))
      fun _ hc => Chunk.isRuns_append hc
  · exact h.push (Chunk.isRuns_ofRange_self _)

theorem runFree_withKeyFrom (h : RunFree s.entries) (current : Option (Nat × Nat)) (key : Nat) :
    RunFree (s.withKeyFrom current key).1.entries := by
  rw [withKeyFrom]
  split
  · exact h
  · exact runFree_withKey h key

theorem runFree_insertAllFrom (h : RunFree s.entries) (current : Option (Nat × Nat)) :
    RunFree (insertAllFrom values current s).entries := by
  induction values generalizing s current with
  | nil => exact h
  | cons v rest ih => exact ih (runFree_insertAt (runFree_withKeyFrom h current _) _ _) _

theorem runFree_appendFrom (h : RunFree s.entries) (last : Option Nat) (count : Nat) :
    RunFree (appendFrom values last count s).1.entries := by
  induction values generalizing s last count with
  | nil => exact h
  | cons v rest ih =>
    rw [appendFrom]
    split
    · exact h
    · exact ih (runFree_append h v) _ _

/-! Ranges, ends and shifts. -/

theorem runFree_eraseSpan (h : RunFree s.entries) (span : Span) :
    RunFree (s.eraseSpan span).1.entries := by
  rw [eraseSpan]
  dsimp only
  rw [← Array.foldl_toList, foldl_erasedEntry]
  have hwindow := (h.extract (s.below span.firstKey) (s.upTo span.lastKey)).mem_toList
  have hmiddle : RunFree (((s.entries.extract (s.below span.firstKey)
      (s.upTo span.lastKey)).toList.map (erasedEntry span)).toArray) := by
    refine .toArray fun f hf => ?_
    obtain ⟨e, he, rfl⟩ := List.mem_map.1 hf
    exact Chunk.isRuns_eraseRange (hwindow e he)
  have hall := ((h.extract 0 (s.below span.firstKey)).append hmiddle).append
    (h.extract (s.upTo span.lastKey) s.entries.size)
  split
  · exact hall.filter _
  · exact hall

theorem runFree_eraseRange (h : RunFree s.entries) (range : Bounds) :
    RunFree (s.eraseRange range).1.entries := by
  rw [eraseRange, changeRange]
  split
  · exact h
  · exact h
  · exact runFree_eraseSpan h _

theorem runFree_dropIn {trim : Chunk → Nat → Chunk}
    (htrim : ∀ c n, c.isRuns = false → (trim c n).isRuns = false) {xs : List Entry}
    (h : ∀ e ∈ xs, e.chunk.isRuns = false) (n : Nat) :
    ∀ e ∈ dropIn trim xs n, e.chunk.isRuns = false := by
  induction xs generalizing n with
  | nil => exact h
  | cons e rest ih =>
    obtain ⟨he, hrest⟩ := List.forall_mem_cons.1 h
    rw [dropIn]
    split
    · exact ih hrest _
    · split
      · exact List.forall_mem_cons.2 ⟨htrim _ _ he, hrest⟩
      · exact h

theorem runFree_dropSmallest (h : RunFree s.entries) (n : Nat) :
    RunFree (s.dropSmallest n).entries :=
  .toArray (runFree_dropIn (fun _ _ => Chunk.isRuns_dropSmallest) h.mem_toList n)

theorem runFree_dropBiggest (h : RunFree s.entries) (n : Nat) :
    RunFree (s.dropBiggest n).entries := by
  refine .toArray fun e he => ?_
  have hreverse : ∀ e ∈ s.entries.toList.reverse, e.chunk.isRuns = false :=
    fun e he => h.mem_toList e (List.mem_reverse.1 he)
  exact runFree_dropIn (fun _ _ => Chunk.isRuns_dropBiggest) hreverse n e (List.mem_reverse.1 he)

theorem runFree_limitIn {xs : List Entry} (h : ∀ e ∈ xs, e.chunk.isRuns = false) {out : Array Entry}
    (hout : RunFree out) (n : Nat) : RunFree (limitIn xs n out) := by
  induction xs generalizing n out with
  | nil => exact hout
  | cons e rest ih =>
    obtain ⟨he, hrest⟩ := List.forall_mem_cons.1 h
    rw [limitIn]
    split
    · exact hout
    · refine ih hrest (hout.push ?_) _
      split
      · exact Chunk.isRuns_dropBiggest he
      · exact he

theorem runFree_limit (h : RunFree s.entries) (n : Nat) : RunFree (s.limit n).entries :=
  runFree_limitIn h.mem_toList .empty n

theorem runFree_addOffset (h : RunFree s.entries) (offset : Int) :
    RunFree (s.addOffset offset).entries := by
  rw [addOffset]
  split
  · intro f hf
    obtain ⟨e, he, hef⟩ := Array.mem_filterMap.1 hf
    obtain ⟨-, -, hchunk⟩ := movedEntry_eq_some.1 hef
    rw [hchunk]
    exact h e he
  · rw [shiftValues_eq]
    refine List.foldlRecOn (motive := fun out : IntSet => RunFree out.entries) _ _ .empty
      fun out hout v _ => ?_
    rw [appendMoved]
    split
    · exact runFree_append hout _
    · exact hout

/-! Two sets. -/

theorem runFree_mergeBy {op : Operation} {f : Chunk → Chunk → Chunk}
    (hf : ∀ c d, op.Either c d (f c d)) (hs : RunFree s.entries) (ht : RunFree t.entries) :
    RunFree (mergeBy op f s t).entries := by
  rw [mergeBy, Pairing.fold_eq_foldl]
  refine List.foldlRecOn (motive := RunFree) _ _ .empty fun out hout pair hpair => ?_
  have hfrom := Pairing.from_of_mem_pairs hpair
  cases pair with
  | left e =>
    dsimp only
    split
    · exact hout.pushNonempty (hs.mem_toList e hfrom)
    · exact hout
  | right e =>
    dsimp only
    split
    · exact hout.pushNonempty (ht.mem_toList e hfrom)
    · exact hout
  | both e e' =>
    refine hout.pushNonempty (Chunk.isRuns_settle ?_)
    have he := hs.mem_toList e hfrom.1
    have he' := ht.mem_toList e' hfrom.2.1
    rcases hf e.chunk e'.chunk with heq | ⟨-, heq⟩
    · rw [heq]
      exact op.isRuns_ontoLeft he he'
    · rw [heq]
      exact op.isRuns_ontoLeft he' he

theorem runFree_combine (op : Operation) (handover : Handover) (hs : RunFree s.entries)
    (ht : RunFree t.entries) : RunFree (combine op handover s t).entries := by
  have happly : RunFree (apply op s t).entries := runFree_mergeBy op.onChunks_either hs ht
  have htaking : RunFree (applyTaking op s t).entries := by
    rw [applyTaking]
    split
    · exact runFree_mergeBy op.taking_either ht hs
    · exact runFree_mergeBy op.taking_either hs ht
  cases handover with
  | neither => exact happly
  | right =>
    rw [combine]
    split
    · exact happly
    · exact runFree_mergeBy op.ontoLeft_either ht hs
  | left => exact runFree_mergeBy op.ontoLeft_either hs ht
  | both => exact htaking
  | inPlace => exact runFree_mergeBy op.ontoLeft_either hs ht
  | inPlaceTaking => exact htaking

end IntSet

/-! Lazy unions. -/

/-- No set contributed a list of runs that is still kept as it was. -/
def LazyChunk.RunFree : LazyChunk → Prop
  | exact c => c.isRuns = false
  | words _ => True

theorem LazyChunk.runFree_orChunk (c : LazyChunk) (d : Chunk) : (c.orChunk d).RunFree := by
  cases c <;> trivial

namespace LazyUnion

variable {s : IntSet} {sets : List IntSet} {u : LazyUnion}

def RunFree (u : LazyUnion) : Prop := ∀ e ∈ u.entries, e.chunk.RunFree

theorem runFree_empty : empty.RunFree := fun e he => absurd he (Array.not_mem_empty e)

theorem runFree_ofSet (h : ChunkedSet.RunFree s.entries) : (ofSet s).RunFree := by
  intro x hx
  obtain ⟨e, he, rfl⟩ := Array.mem_map.1 hx
  exact h e he

theorem runFree_addEntry (h : u.RunFree) {e : Entry} (he : e.chunk.isRuns = false) :
    (u.addEntry e).RunFree := by
  rw [RunFree, addEntry_entries]
  have hblank : LazyChunk.RunFree .blank := rfl
  exact forall_mem_changeOrInsert (Q := fun x : LazyEntry => x.chunk.RunFree) h _ _ hblank
    (fun x _ => x.chunk.runFree_orChunk e.chunk) he

theorem runFree_add (h : u.RunFree) (hs : ChunkedSet.RunFree s.entries) : (u.add s).RunFree := by
  rw [add, ← Array.foldl_toList]
  exact List.foldlRecOn (motive := RunFree) _ _ h fun v hv e he =>
    runFree_addEntry hv (hs.mem_toList e he)

theorem runFree_addAll (h : u.RunFree) (hsets : ∀ t ∈ sets, ChunkedSet.RunFree t.entries) :
    (u.addAll sets).RunFree :=
  List.foldlRecOn (motive := RunFree) _ _ h fun _ hv t ht => runFree_add hv (hsets t ht)

theorem Fed.runFree (h : Fed sets u) (hsets : ∀ t ∈ sets, ChunkedSet.RunFree t.entries) :
    u.RunFree := by
  induction h with
  | empty => exact runFree_empty
  | ofSet s => exact runFree_ofSet (hsets s List.mem_cons_self)
  | add h s ih =>
    obtain ⟨hsets, hs⟩ := List.forall_mem_append.1 hsets
    exact runFree_add (ih hsets) (hs s List.mem_cons_self)
  | addAll h more ih =>
    obtain ⟨hsets, hmore⟩ := List.forall_mem_append.1 hsets
    exact runFree_addAll (ih hsets) hmore

theorem runFree_repair (h : u.RunFree) : ChunkedSet.RunFree u.repair.entries := by
  rw [repair, ← Array.foldl_toList]
  refine List.foldlRecOn (motive := ChunkedSet.RunFree) _ _ .empty fun out hout x hx => ?_
  refine hout.pushNonempty ?_
  have hchunk := h x (Array.mem_toList_iff.1 hx)
  cases hcase : x.chunk with
  | exact c =>
    rw [hcase] at hchunk
    exact hchunk
  | words ws => exact Chunk.isRuns_settle rfl

end LazyUnion

/-! Many sets. -/

namespace Many

variable {ε : Type} {inputs : List (Except ε IntSet)} {o : Ownership} {op : Operation}
  {s t : IntSet}

theorem runFree_unionFrom (hinputs : ∀ t, .ok t ∈ inputs → RunFree t.entries) {u v : LazyUnion}
    (hu : u.RunFree) (hv : unionFrom inputs u = .ok v) : v.RunFree := by
  induction inputs generalizing u with
  | nil =>
    rw [unionFrom] at hv
    rw [← Except.ok.inj hv]
    exact hu
  | cons input rest ih =>
    cases input with
    | error e => cases hv
    | ok r =>
      have hr := hinputs r List.mem_cons_self
      exact ih (fun t ht => hinputs t (List.mem_cons_of_mem _ ht)) (LazyUnion.runFree_add hu hr) hv

theorem runFree_foldWhileNonempty (hinputs : ∀ t, .ok t ∈ inputs → RunFree t.entries)
    (hs : RunFree s.entries) (ht : foldWhileNonempty op o inputs s = .ok t) :
    RunFree t.entries := by
  induction inputs generalizing s with
  | nil =>
    rw [foldWhileNonempty] at ht
    rw [← Except.ok.inj ht]
    exact hs
  | cons input rest ih =>
    unfold foldWhileNonempty at ht
    split at ht
    · rw [← Except.ok.inj ht]
      exact hs
    · cases input with
      | error e => cases ht
      | ok r =>
        have hr := hinputs r List.mem_cons_self
        exact ih (fun t ht => hinputs t (List.mem_cons_of_mem _ ht))
          (IntSet.runFree_combine op (handover o) hs hr) ht

theorem runFree_intersection (hinputs : ∀ t, .ok t ∈ inputs → RunFree t.entries)
    (hs : intersection o inputs = .ok s) : RunFree s.entries := by
  rcases intersection_cases hs with ⟨rfl, rfl⟩ | ⟨head, first, others, htake, hsorted, hfold⟩
  · exact .empty
  · have hperm : (byEntries head).Perm head := List.mergeSort_perm head _
    rw [hsorted] at hperm
    have hhead : ∀ t ∈ first :: others, RunFree t.entries := fun t ht => by
      refine hinputs t (List.mem_of_mem_take (i := headSize) ?_)
      rw [htake]
      exact List.mem_map_of_mem (hperm.subset ht)
    obtain ⟨hfirst, hothers⟩ := List.forall_mem_cons.1 hhead
    refine runFree_foldWhileNonempty (fun t ht => ?_) hfirst hfold
    rcases List.mem_append.1 ht with ht | ht
    · obtain ⟨r, hr, heq⟩ := List.mem_map.1 ht
      rw [← Except.ok.inj heq]
      exact hothers r hr
    · exact hinputs t (List.mem_of_mem_drop ht)

theorem runFree_difference (hinputs : ∀ t, .ok t ∈ inputs → RunFree t.entries)
    (hs : difference o inputs = .ok s) : RunFree s.entries := by
  cases inputs with
  | nil =>
    rw [difference] at hs
    rw [← Except.ok.inj hs]
    exact .empty
  | cons input rest =>
    cases input with
    | error e => cases hs
    | ok first =>
      exact runFree_foldWhileNonempty (fun t ht => hinputs t (List.mem_cons_of_mem _ ht))
        (hinputs first List.mem_cons_self) hs

theorem isRuns_accumulator (c : Chunk) : (accumulator c).isRuns = c.isRuns := by
  cases c <;> rfl

theorem isRuns_toggle (hc : c.isRuns = false) (hd : d.isRuns = false) :
    (toggle c d).isRuns = false := by
  rw [toggle]
  split
  · rw [Chunk.isRuns_symmetricDifferenceOnto, isRuns_accumulator, hc, hd, Bool.or_self,
      Bool.false_and]
  · rw [Chunk.isRuns_symmetricDifferenceOnto, isRuns_accumulator, hc, hd, Bool.or_self,
      Bool.false_and]

theorem runFree_toggleAll (hinputs : ∀ t, .ok t ∈ inputs → RunFree t.entries)
    {acc acc' : Array Entry} (h : RunFree acc) (hacc : toggleAll inputs acc = .ok acc') :
    RunFree acc' := by
  induction inputs generalizing acc with
  | nil =>
    rw [toggleAll] at hacc
    rw [← Except.ok.inj hacc]
    exact h
  | cons input rest ih =>
    cases input with
    | error e => cases hacc
    | ok r =>
      have hr := (hinputs r List.mem_cons_self).mem_toList
      refine ih (fun t ht => hinputs t (List.mem_cons_of_mem _ ht)) ?_ hacc
      rw [← Array.foldl_toList]
      refine List.foldlRecOn (motive := RunFree) _ _ h fun acc hacc e he => ?_
      rw [toggleEntry_eq]
      exact forall_mem_changeOrInsert hacc _ _ rfl (fun x hx => isRuns_toggle hx (hr e he)) (hr e he)

theorem runFree_settleAll {acc : Array Entry} (h : RunFree acc) :
    RunFree (settleAll acc).entries := by
  intro x hx
  obtain ⟨e, he, rfl⟩ := Array.mem_map.1 hx
  exact Chunk.isRuns_settle (h e (Array.mem_filter.1 he).1)

theorem runFree_apply (op : Operation) (o : Ownership)
    (hinputs : ∀ t, .ok t ∈ inputs → RunFree t.entries) (hs : apply op o inputs = .ok s) :
    RunFree s.entries := by
  cases op with
  | union =>
    obtain ⟨u, hu, rfl⟩ := exists_of_map_eq_ok hs
    exact LazyUnion.runFree_repair (runFree_unionFrom hinputs LazyUnion.runFree_empty hu)
  | intersection => exact runFree_intersection hinputs hs
  | difference => exact runFree_difference hinputs hs
  | symmetricDifference =>
    obtain ⟨acc, hacc, rfl⟩ := exists_of_map_eq_ok hs
    exact runFree_settleAll (runFree_toggleAll hinputs .empty hacc)

theorem runFree_applyAll (op : Operation) (o : Ownership) {sets : List IntSet}
    (hsets : ∀ t ∈ sets, RunFree t.entries) : RunFree (applyAll op o sets).entries := by
  rw [applyAll]
  split
  rename_i s hs
  refine runFree_apply op o (fun t ht => ?_) hs
  obtain ⟨r, hr, heq⟩ := List.mem_map.1 ht
  rw [← Except.ok.inj heq]
  exact hsets r hr

end Many

namespace Aggregate

variable {strategy : Strategy} {op : Operation} {sets : List IntSet}

theorem runFree_reduce (hstrategy : Lawful strategy) {leaf : List IntSet → IntSet}
    (hleaf : ∀ part : List IntSet, (∀ t ∈ part, RunFree t.entries) → RunFree (leaf part).entries)
    (hsets : ∀ t ∈ sets, RunFree t.entries) :
    RunFree (reduce strategy leaf (IntSet.combine op .both) sets).entries :=
  reduce_induction (Q := fun _ s => RunFree s.entries) hstrategy
    (fun part hpart => hleaf part fun t ht => hsets t (hpart ht))
    fun _ _ _ _ hs ht => IntSet.runFree_combine op .both hs ht

theorem runFree_union (hstrategy : Lawful strategy) (hsets : ∀ t ∈ sets, RunFree t.entries) :
    RunFree (union strategy sets).entries :=
  runFree_reduce hstrategy (fun _ hpart =>
    LazyUnion.runFree_repair (LazyUnion.runFree_addAll LazyUnion.runFree_empty hpart)) hsets

theorem runFree_symmetricDifference (hstrategy : Lawful strategy)
    (hsets : ∀ t ∈ sets, RunFree t.entries) :
    RunFree (symmetricDifference strategy sets).entries :=
  runFree_reduce hstrategy
    (fun _ hpart => Many.runFree_applyAll .symmetricDifference .kept hpart) hsets

end Aggregate

end ChunkedSet
