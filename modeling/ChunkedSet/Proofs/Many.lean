import ChunkedSet.Many.Aggregate
import ChunkedSet.Proofs.Combine
import ChunkedSet.Proofs.LazyUnion

/-!
# Operations on many sets

Folds of the binary operations, lazy unions, and a symmetric difference that toggles entries in
an accumulator which is settled at its end. Each denotes the operation among the inputs that are
no failures, also where it stops before the last of them.
-/

namespace ChunkedSet

variable {P : Chunk → Prop} {F G : Nat → Finset Nat} {S T : Finset Nat} {s t : IntSet}
  {sets : List IntSet} {op : Operation}

theorem IntSet.Denotes.eq_empty (h : s.Denotes P F) (hempty : s.isEmpty = true) {k : Nat}
    (hk : k < chunkSize) : F k = ∅ := by
  have hentries : s.entries.toList = [] := by
    rw [Array.isEmpty_iff.1 hempty, Array.toList_empty]
  rw [Denotes, hentries] at h
  exact Segment.nil_iff.1 h k (Nat.zero_le k) hk

namespace Many

variable {ε : Type} {inputs : List (Except ε IntSet)} {o : Ownership}

def okSets (inputs : List (Except ε IntSet)) : List IntSet := inputs.filterMap Except.toOption

theorem okSets_nil : okSets ([] : List (Except ε IntSet)) = [] := rfl

theorem okSets_ok_cons (s : IntSet) (inputs : List (Except ε IntSet)) :
    okSets (.ok s :: inputs) = s :: okSets inputs := rfl

theorem okSets_append (inputs rest : List (Except ε IntSet)) :
    okSets (inputs ++ rest) = okSets inputs ++ okSets rest :=
  List.filterMap_append

theorem okSets_map_ok (sets : List IntSet) :
    okSets (sets.map (Except.ok (ε := ε))) = sets := by
  induction sets with
  | nil => rfl
  | cons s rest ih => rw [List.map_cons, okSets_ok_cons, ih]

def InputsDenote (P : Chunk → Prop) (inputs : List (Except ε IntSet)) : Prop :=
  ∀ s, .ok s ∈ inputs → ∃ F, s.Denotes P F

theorem InputsDenote.tail {input : Except ε IntSet} (h : InputsDenote P (input :: inputs)) :
    InputsDenote P inputs :=
  fun s hs => h s (List.mem_cons_of_mem input hs)

theorem inputsDenote_map_ok (h : ∀ s ∈ sets, ∃ F, s.Denotes P F) :
    InputsDenote P (sets.map (Except.ok (ε := ε))) := fun s hs => by
  obtain ⟨t, ht, heq⟩ := List.mem_map.1 hs
  rw [← Except.ok.inj heq]
  exact h t ht

theorem unionFrom_denotes (hinputs : InputsDenote P inputs) {u v : LazyUnion}
    (hu : u.Denotes P (Operation.union.slotsAmong sets)) (hv : unionFrom inputs u = .ok v) :
    v.Denotes P (Operation.union.slotsAmong (sets ++ okSets inputs)) := by
  induction inputs generalizing u sets with
  | nil =>
    rw [unionFrom] at hv
    rw [← Except.ok.inj hv, okSets_nil, List.append_nil]
    exact hu
  | cons input rest ih =>
    cases input with
    | error e => cases hv
    | ok s =>
      obtain ⟨G, hG⟩ := hinputs s List.mem_cons_self
      rw [okSets_ok_cons, List.append_cons]
      exact ih hinputs.tail (LazyUnion.add_denotes_among hu hG) hv

theorem exists_of_map_eq_ok {α β : Type} {f : α → β} {result : Except ε α} {b : β}
    (h : result.map f = .ok b) : ∃ a, result = .ok a ∧ f a = b := by
  cases result with
  | error e => cases h
  | ok a => exact ⟨a, rfl, Except.ok.inj h⟩

theorem union_denotes (hP : Chunk.Grade P) (hinputs : InputsDenote P inputs)
    (hs : union inputs = .ok s) : s.Denotes P (Operation.union.slotsAmong (okSets inputs)) := by
  obtain ⟨u, hu, rfl⟩ := exists_of_map_eq_ok hs
  have hden := unionFrom_denotes hinputs LazyUnion.empty_denotes_among hu
  rw [List.nil_append] at hden
  exact LazyUnion.repair_denotes hP hden

/-- Stopping at an empty result is right, since nothing comes back into it. -/
theorem foldWhileNonempty_denotes (hP : Chunk.Grade P) (hop : op.keepsRight = false)
    (hinputs : InputsDenote P inputs) (hsets : sets ≠ []) (hs : s.Denotes P (op.slotsAmong sets))
    (ht : foldWhileNonempty op o inputs s = .ok t) :
    t.Denotes P (op.slotsAmong (sets ++ okSets inputs)) := by
  induction inputs generalizing s sets with
  | nil =>
    rw [foldWhileNonempty] at ht
    rw [← Except.ok.inj ht, okSets_nil, List.append_nil]
    exact hs
  | cons input rest ih =>
    unfold foldWhileNonempty at ht
    split at ht
    · rename_i hempty
      rw [← Except.ok.inj ht]
      refine hs.congr fun k _ hk => ?_
      have hnone := hs.eq_empty hempty hk
      rw [hnone, Operation.slotsAmong_append_eq_empty hop hsets hnone]
    · cases input with
      | error e => cases ht
      | ok r =>
        obtain ⟨G, hG⟩ := hinputs r List.mem_cons_self
        have hcombine := IntSet.combine_denotes hP op (handover o) hs hG.slots
        rw [← Operation.slotsAmong_concat (.inr hsets)] at hcombine
        rw [okSets_ok_cons, List.append_cons]
        exact ih hinputs.tail (List.append_ne_nil_of_right_ne_nil sets nofun) hcombine ht

theorem exists_of_collect {out : Array IntSet} (h : collect inputs out = .ok sets) :
    ∃ more : List IntSet, inputs = more.map .ok ∧ sets = out.toList ++ more := by
  induction inputs generalizing out with
  | nil =>
    rw [collect] at h
    exact ⟨[], rfl, by rw [← Except.ok.inj h, List.append_nil]⟩
  | cons input rest ih =>
    cases input with
    | error e => cases h
    | ok r =>
      obtain ⟨more, rfl, rfl⟩ := ih h
      exact ⟨r :: more, rfl, by rw [Array.toList_push, ← List.append_cons]⟩

theorem intersection_cases (h : intersection o inputs = .ok s) : inputs = [] ∧ s = .empty ∨
    ∃ head first others, inputs.take headSize = head.map .ok ∧ byEntries head = first :: others ∧
      foldWhileNonempty .intersection o (others.map .ok ++ inputs.drop headSize) first = .ok s := by
  rw [intersection] at h
  cases hcase : collect (inputs.take headSize) #[] with
  | error e =>
    rw [hcase] at h
    cases h
  | ok head =>
    rw [hcase] at h
    obtain ⟨more, htake, hmore⟩ := exists_of_collect hcase
    obtain rfl : head = more := hmore
    dsimp only at h
    cases hsorted : byEntries head with
    | nil =>
      simp only [hsorted] at h
      have hperm : (byEntries head).Perm head := List.mergeSort_perm head _
      rw [hsorted] at hperm
      rw [← hperm.nil_eq, List.map_nil, List.take_eq_nil_iff] at htake
      exact .inl ⟨htake.resolve_left (by decide), (Except.ok.inj h).symm⟩
    | cons first others =>
      simp only [hsorted] at h
      exact .inr ⟨head, first, others, htake, hsorted, h⟩

/-- The sets at the head of an intersection may be combined in any order. -/
theorem foldWhileNonempty_perm_denotes (hP : Chunk.Grade P) {head others : List IntSet}
    {first : IntSet} (hperm : (first :: others).Perm head) (hhead : ∀ t ∈ head, ∃ F, t.Denotes P F)
    (hinputs : InputsDenote P inputs)
    (hs : foldWhileNonempty .intersection o (others.map .ok ++ inputs) first = .ok s) :
    s.Denotes P (Operation.intersection.slotsAmong (head ++ okSets inputs)) := by
  obtain ⟨hfirst, hothers⟩ := List.forall_mem_cons.1 fun t ht => hhead t (hperm.subset ht)
  obtain ⟨G, hG⟩ := hfirst
  have hslots := hG.slots
  rw [← Operation.slotsAmong_singleton .intersection] at hslots
  have hrest : InputsDenote P (others.map .ok ++ inputs) := fun t ht =>
    (List.mem_append.1 ht).elim (inputsDenote_map_ok hothers t) (hinputs t)
  have hden := foldWhileNonempty_denotes hP rfl hrest (List.cons_ne_nil first []) hslots hs
  rw [okSets_append, okSets_map_ok] at hden
  rw [Operation.slotsAmong_congr fun v => Operation.holdsAmong_intersection_perm
    (hperm.append_right _).symm]
  exact hden

theorem intersection_denotes (hP : Chunk.Grade P) (hinputs : InputsDenote P inputs)
    (hs : intersection o inputs = .ok s) :
    s.Denotes P (Operation.intersection.slotsAmong (okSets inputs)) := by
  rcases intersection_cases hs with ⟨rfl, rfl⟩ | ⟨head, first, others, htake, hsorted, hfold⟩
  · rw [okSets_nil, Operation.slotsAmong_nil]
    exact IntSet.empty_denotes
  · have hsplit : inputs = head.map .ok ++ inputs.drop headSize := by
      rw [← htake, List.take_append_drop]
    have hperm : (first :: others).Perm head := hsorted ▸ List.mergeSort_perm head _
    rw [hsplit, okSets_append, okSets_map_ok]
    refine foldWhileNonempty_perm_denotes hP hperm (fun t ht => ?_)
      (fun t ht => hinputs t (List.mem_of_mem_drop ht)) hfold
    refine hinputs t (List.mem_of_mem_take (i := headSize) ?_)
    rw [htake]
    exact List.mem_map_of_mem ht

theorem difference_denotes (hP : Chunk.Grade P) (hinputs : InputsDenote P inputs)
    (hs : difference o inputs = .ok s) :
    s.Denotes P (Operation.difference.slotsAmong (okSets inputs)) := by
  cases inputs with
  | nil =>
    rw [difference] at hs
    rw [← Except.ok.inj hs, okSets_nil, Operation.slotsAmong_nil]
    exact IntSet.empty_denotes
  | cons input rest =>
    cases input with
    | error e => cases hs
    | ok first =>
      obtain ⟨G, hG⟩ := hinputs first List.mem_cons_self
      have hfirst := hG.slots
      rw [← Operation.slotsAmong_singleton .difference] at hfirst
      have hfold := foldWhileNonempty_denotes hP rfl hinputs.tail (List.cons_ne_nil first [])
        hfirst hs
      rw [List.singleton_append] at hfold
      rw [okSets_ok_cons]
      exact hfold

/-! Toggled entries. -/

theorem accumulator_denotes {c : Chunk} (h : c.Denotes S) : (accumulator c).Denotes S := by
  cases c with
  | array a => exact Block.ofSorted_denotes h
  | block b => exact h
  | runs l => exact h

theorem toggle_denotes {c d : Chunk} (hc : c.Denotes S) (hd : d.Denotes T) :
    (toggle c d).Denotes (symmDiff S T) := by
  rw [toggle]
  split
  · rw [symmDiff_comm]
    exact Chunk.symmetricDifferenceOnto_denotes (accumulator_denotes hd) hc
  · exact Chunk.symmetricDifferenceOnto_denotes (accumulator_denotes hc) hd

/-- The entries of an accumulator, which may be empty and need not be settled. -/
def Toggled (F : Nat → Finset Nat) (acc : Array Entry) : Prop :=
  Segment Entry.key (fun e S => e.chunk.Denotes S) F 0 chunkSize acc.toList

theorem toggleEntry_eq (acc : Array Entry) (e : Entry) :
    toggleEntry acc e = Segment.changeOrInsert Entry.key acc e.key .blank
      (fun x => ⟨x.key, toggle x.chunk e.chunk⟩) e := by
  unfold toggleEntry Segment.changeOrInsert
  rfl

theorem toggleEntry_toggled {acc : Array Entry} (h : Toggled F acc) {e : Entry}
    (he : e.chunk.Denotes S) (hkey : e.key < chunkSize) (hFG : ∀ k, k ≠ e.key → G k = F k)
    (hG : G e.key = symmDiff (F e.key) S) : Toggled G (toggleEntry acc e) := by
  rw [Toggled, toggleEntry_eq]
  refine h.changeOrInsert_segment (Nat.zero_le _) hkey _ hFG (fun x hx hden => ⟨hx, ?_⟩)
    ⟨rfl, fun hnone => ?_⟩
  · rw [hG]
    exact toggle_denotes hden he
  · rw [hG, hnone, ← Finset.bot_eq_empty, bot_symmDiff]
    exact he

theorem foldl_toggleEntry_toggled {acc : Array Entry} (h : Toggled F acc) (hs : s.Denotes P G) :
    Toggled (fun k => symmDiff (F k) (G k)) (s.entries.foldl toggleEntry acc) :=
  hs.foldl_entries (D := fun acc F => Toggled F acc) symmDiff_bot
    (fun h hFG => h.congr fun k _ hk => hFG k hk)
    (fun h he hkey => toggleEntry_toggled h he.1 hkey) h

theorem toggleAll_toggled (hinputs : InputsDenote P inputs) {acc acc' : Array Entry}
    (h : Toggled (Operation.symmetricDifference.slotsAmong sets) acc)
    (hacc : toggleAll inputs acc = .ok acc') :
    Toggled (Operation.symmetricDifference.slotsAmong (sets ++ okSets inputs)) acc' := by
  induction inputs generalizing acc sets with
  | nil =>
    rw [toggleAll] at hacc
    rw [← Except.ok.inj hacc, okSets_nil, List.append_nil]
    exact h
  | cons input rest ih =>
    cases input with
    | error e => cases hacc
    | ok s =>
      obtain ⟨G, hG⟩ := hinputs s List.mem_cons_self
      have htoggled := foldl_toggleEntry_toggled h hG.slots
      rw [okSets_ok_cons, List.append_cons]
      refine ih hinputs.tail ?_ hacc
      rw [Operation.slotsAmong_concat (.inl rfl)]
      exact htoggled

theorem settleAll_denotes (hP : Chunk.Grade P) {acc : Array Entry} (h : Toggled F acc) :
    (settleAll acc).Denotes P F := by
  have hkept : Segment Entry.key (fun e S => e.chunk.Denotes S ∧ S.Nonempty) F 0 chunkSize
      (acc.toList.filter fun e => !e.isEmpty) := h.filter
    (fun e he hno => by
      have hden := (h.element e he).2.2
      rw [Bool.not_eq_true'] at hno
      exact ⟨hden, hden.nonempty hno⟩)
    fun e he hno => by
      have hempty : e.isEmpty = decide _ := (h.element e he).2.2.isEmpty
      rw [Bool.not_eq_false', hempty, decide_eq_true_eq] at hno
      exact hno
  rw [IntSet.Denotes, settleAll, Array.toList_map, Array.toList_filter]
  refine hkept.map (fun e he => ⟨rfl, ?_⟩) fun _ _ _ hempty => hempty
  have he' := (hkept.element e he).2.2
  exact Entry.denotes_of_fits hP (Chunk.settle_denotes he'.1) (Chunk.fits_settle he'.1) he'.2

theorem symmetricDifference_denotes (hP : Chunk.Grade P) (hinputs : InputsDenote P inputs)
    (hs : symmetricDifference inputs = .ok s) :
    s.Denotes P (Operation.symmetricDifference.slotsAmong (okSets inputs)) := by
  obtain ⟨acc, hacc, rfl⟩ := exists_of_map_eq_ok hs
  have hempty : Toggled (Operation.symmetricDifference.slotsAmong []) #[] := by
    rw [Operation.slotsAmong_nil]
    exact Segment.nil_iff.2 fun _ _ _ => rfl
  have htoggled := toggleAll_toggled hinputs hempty hacc
  rw [List.nil_append] at htoggled
  exact settleAll_denotes hP htoggled

theorem apply_denotes (hP : Chunk.Grade P) (op : Operation) (o : Ownership)
    (hinputs : InputsDenote P inputs) (hs : apply op o inputs = .ok s) :
    s.Denotes P (op.slotsAmong (okSets inputs)) := by
  cases op with
  | union => exact union_denotes hP hinputs hs
  | intersection => exact intersection_denotes hP hinputs hs
  | difference => exact difference_denotes hP hinputs hs
  | symmetricDifference => exact symmetricDifference_denotes hP hinputs hs

theorem applyAll_denotes (hP : Chunk.Grade P) (op : Operation) (o : Ownership)
    (hsets : ∀ s ∈ sets, ∃ F, s.Denotes P F) :
    (applyAll op o sets).Denotes P (op.slotsAmong sets) := by
  rw [applyAll]
  split
  rename_i s hs
  have hden := apply_denotes hP op o (inputsDenote_map_ok hsets) hs
  rw [okSets_map_ok] at hden
  exact hden

end Many

/-! Halves. -/

namespace Aggregate

def Lawful (strategy : Strategy) : Prop := ∀ a b, strategy.join a b = (a (), b ())

/-- What holds of the parts that are reduced in one go, and of a merge of two neighbouring parts,
holds of the whole. -/
theorem reduce_induction {strategy : Strategy} (hstrategy : Lawful strategy)
    {leaf : List IntSet → IntSet} {merge : IntSet → IntSet → IntSet}
    {Q : List IntSet → IntSet → Prop}
    (hleaf : ∀ part : List IntSet, part ⊆ sets → Q part (leaf part))
    (hmerge : ∀ (xs ys : List IntSet) (s t : IntSet), Q xs s → Q ys t → Q (xs ++ ys) (merge s t)) :
    Q sets (reduce strategy leaf merge sets) := by
  obtain ⟨join⟩ := strategy
  obtain rfl : join = fun a b => (a (), b ()) := funext fun a => funext (hstrategy a)
  induction sets using reduce.induct ⟨fun a b => (a (), b ())⟩ leaf merge with
  | case1 sets hsmall =>
    rw [reduce, dif_pos hsmall]
    exact hleaf sets (List.Subset.refl sets)
  | case2 sets hbig half hhalf left right hjoin ih ih' =>
    have hleft := ih fun part hpart =>
      hleaf part (List.Subset.trans hpart (List.take_subset half sets))
    have hright := ih' fun part hpart =>
      hleaf part (List.Subset.trans hpart (List.drop_subset half sets))
    have hwhole := hmerge _ _ _ _ hleft hright
    rw [List.take_append_drop] at hwhole
    rw [reduce, dif_neg hbig]
    exact hwhole

theorem reduce_denotes (hP : Chunk.Grade P) {strategy : Strategy} (hstrategy : Lawful strategy)
    (hop : op.keepsRight = true) {leaf : List IntSet → IntSet}
    (hleaf : ∀ part : List IntSet, (∀ s ∈ part, ∃ F, s.Denotes P F) →
      (leaf part).Denotes P (op.slotsAmong part))
    (hsets : ∀ s ∈ sets, ∃ F, s.Denotes P F) :
    (reduce strategy leaf (IntSet.combine op .both) sets).Denotes P (op.slotsAmong sets) := by
  refine reduce_induction (Q := fun part s => s.Denotes P (op.slotsAmong part)) hstrategy
    (fun part hpart => hleaf part fun s hs => hsets s (hpart hs)) fun xs ys s t hs ht => ?_
  rw [Operation.slotsAmong_append hop]
  exact IntSet.combine_denotes hP op .both hs ht

theorem union_denotes (hP : Chunk.Grade P) {strategy : Strategy} (hstrategy : Lawful strategy)
    (hsets : ∀ s ∈ sets, ∃ F, s.Denotes P F) :
    (union strategy sets).Denotes P (Operation.union.slotsAmong sets) :=
  reduce_denotes hP hstrategy rfl
    (fun _ hpart => LazyUnion.repair_denotes hP (LazyUnion.empty_addAll_denotes hpart)) hsets

theorem symmetricDifference_denotes (hP : Chunk.Grade P) {strategy : Strategy}
    (hstrategy : Lawful strategy) (hsets : ∀ s ∈ sets, ∃ F, s.Denotes P F) :
    (symmetricDifference strategy sets).Denotes P
      (Operation.symmetricDifference.slotsAmong sets) :=
  reduce_denotes hP hstrategy rfl
    (fun _ hpart => Many.applyAll_denotes hP .symmetricDifference .kept hpart) hsets

end Aggregate

end ChunkedSet
