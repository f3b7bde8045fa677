import ChunkedSet.Proofs.Plain
import ChunkedSet.Proofs.SetSizes

/-!
# What a lazy union knows

The size of a lazy union is known as long as all its keys came from different sets, and lost for
good with the first key that comes twice. A union without entries is one without values. Once
repaired, a union of sets without runs is the set that eager unions of them lead to.
-/

namespace ChunkedSet

open Finset

variable {P : Chunk → Prop} {F G : Nat → Finset Nat} {S : Finset Nat} {s : IntSet}
  {sets more : List IntSet} {u : LazyUnion} {a k n : Nat}

theorem Segment.eq_nil_iff {α : Type} {key : α → Nat} {Stands : α → Finset Nat → Prop} {b : Nat}
    {xs : List α} (h : Segment key Stands F a b xs) (hnonempty : ∀ x S, Stands x S → S.Nonempty) :
    xs = [] ↔ ∀ k, a ≤ k → k < b → F k = ∅ := by
  constructor
  · rintro rfl
    exact nil_iff.1 h
  · intro hF
    refine List.eq_nil_iff_forall_not_mem.2 fun x hx => ?_
    obtain ⟨hax, hxb, hden⟩ := h.element x hx
    exact (hnonempty x _ hden).ne_empty (hF _ hax hxb)

theorem IntSet.Denotes.mem_keys (h : s.Denotes P F) (hk : k < chunkSize) :
    k ∈ s.keys ↔ (F k).Nonempty := by
  constructor
  · intro hmem
    obtain ⟨e, he, rfl⟩ := List.mem_map.1 hmem
    exact (h.element e he).2.2.2.2
  · intro hne
    by_contra hnone
    refine hne.ne_empty (h.absent k (Nat.zero_le k) hk fun e he hkey => hnone ?_)
    exact List.mem_map.2 ⟨e, he, hkey⟩

theorem Operation.slotsAmong_union_eq_empty (hsets : ∀ t ∈ sets, t.Valid) (hk : k < chunkSize) :
    union.slotsAmong sets k = ∅ ↔ ∀ t ∈ sets, k ∉ t.keys := by
  have hkeys : ∀ t ∈ sets, (k ∉ t.keys ↔ ∀ p ∈ range chunkSize, valueAt k p ∉ t) := by
    intro t ht
    rw [(hsets t ht).denotes.mem_keys hk, not_nonempty_iff_eq_empty, IntSet.slots,
      filter_eq_empty_iff]
  rw [slotsAmong, filter_eq_empty_iff]
  constructor
  · intro hnone t ht
    exact (hkeys t ht).2 fun p hp hmem => hnone hp ⟨t, ht, hmem⟩
  · rintro hnone p hp ⟨t, ht, hmem⟩
    exact (hkeys t ht).1 (hnone t ht) p hp hmem

/-! The size over the sets. -/

def KeysApart (sets : List IntSet) : Prop := sets.Pairwise fun s t => s.keys.Disjoint t.keys

instance : DecidablePred KeysApart :=
  fun sets => inferInstanceAs (Decidable (sets.Pairwise fun s t => ∀ k ∈ s.keys, k ∉ t.keys))

theorem keysApart_concat :
    KeysApart (sets ++ [s]) ↔ KeysApart sets ∧ ∀ t ∈ sets, t.keys.Disjoint s.keys := by
  simp [KeysApart, List.pairwise_append]

theorem not_mem_of_disjoint_keys {s t : IntSet} (h : s.keys.Disjoint t.keys) {v : Nat}
    (hs : v ∈ s) : v ∉ t := by
  intro ht
  obtain ⟨e, he, hekey, -⟩ := (IntSet.mem_def s v).1 hs
  obtain ⟨f, hf, hfkey, -⟩ := (IntSet.mem_def t v).1 ht
  exact h (List.mem_map.2 ⟨e, he, hekey⟩) (List.mem_map.2 ⟨f, hf, hfkey⟩)

theorem sum_size_eq_card (hsets : ∀ t ∈ sets, t.Valid) (h : KeysApart sets) :
    (sets.map IntSet.size).sum = #{v ∈ range domainSize | ∃ t ∈ sets, v ∈ t} := by
  induction sets with
  | nil => simp
  | cons s rest ih =>
    obtain ⟨hs, hrest⟩ := List.pairwise_cons.1 h
    have hdisjoint : Disjoint {v ∈ range domainSize | v ∈ s}
        {v ∈ range domainSize | ∃ t ∈ rest, v ∈ t} := by
      rw [disjoint_filter]
      rintro v - hv ⟨t, ht, hvt⟩
      exact not_mem_of_disjoint_keys (hs t ht) hv hvt
    rw [List.map_cons, List.sum_cons, ih (fun t ht => hsets t (List.mem_cons_of_mem s ht)) hrest,
      (hsets s List.mem_cons_self).size_eq_card, ← card_union_of_disjoint hdisjoint, ← filter_or]
    simp only [List.mem_cons, exists_eq_or_imp]

theorem LazyChunk.Denotes.nonempty {c : LazyChunk} (h : c.Denotes P S) : S.Nonempty := by
  cases c with
  | exact c => exact h.2.2
  | words ws => exact h.2

namespace LazyUnion

theorem Denotes.isEmpty_iff (h : u.Denotes P F) :
    u.isEmpty = true ↔ ∀ k, k < chunkSize → F k = ∅ := by
  rw [isEmpty, Array.isEmpty_iff, ← Array.toList_eq_nil_iff,
    Segment.eq_nil_iff h fun x S hx => LazyChunk.Denotes.nonempty hx]
  simp only [Nat.zero_le, true_imp_iff]

theorem addEntry_size? (h : u.Denotes P F) {e : Entry} (hkey : e.key < chunkSize) :
    (u.addEntry e).size? = if F e.key = ∅ then u.size?.map (· + e.size) else none := by
  rw [addEntry, below]
  rcases h.getElem?_place e.key with ⟨x, hx, hget, hparts⟩ | ⟨hget, hne, -⟩
  · have hmem : x ∈ u.entries.toList := by
      rw [hparts]
      simp
    have hsome : F e.key ≠ ∅ := by
      rw [← hx]
      exact (LazyChunk.Denotes.nonempty (h.element x hmem).2.2).ne_empty
    rw [hget, Option.map_some, if_neg hsome]
    dsimp only
    rw [if_pos hx]
  · rw [if_pos (h.absent _ (Nat.zero_le _) hkey hne)]
    split
    · rename_i found hcase
      obtain ⟨x, hx, rfl⟩ := Option.map_eq_some_iff.1 hcase
      rw [if_neg (hget x hx)]
    · rfl

theorem foldl_addEntry_size? {xs : List Entry}
    (hxs : Segment Entry.key (Entry.Denotes P) G a chunkSize xs) (hu : u.Denotes P F) :
    (xs.foldl addEntry u).size? =
      if ∀ e ∈ xs, F e.key = ∅ then u.size?.map (· + (xs.map Entry.size).sum) else none := by
  induction xs generalizing a u F with
  | nil => simp
  | cons e rest ih =>
    obtain ⟨he, -, hrest⟩ := Segment.cons_iff.1 hxs
    have hstep := addEntry_denotes (G := Function.update F e.key (F e.key ∪ G e.key)) hu he.2.2
      he.2.1 (fun k hk => Function.update_of_ne hk _ _) (Function.update_self _ _ _)
    have hsame : ∀ f ∈ rest, Function.update F e.key (F e.key ∪ G e.key) f.key = F f.key := by
      intro f hf
      have hlt := (hrest.element f hf).1
      exact Function.update_of_ne (by omega) _ _
    rw [List.foldl_cons, ih hrest hstep, addEntry_size? hu he.2.1]
    simp only [List.forall_mem_cons, List.map_cons, List.sum_cons]
    by_cases hall : ∀ f ∈ rest, F f.key = ∅
    · rw [if_pos fun f hf => (hsame f hf).trans (hall f hf)]
      by_cases hfirst : F e.key = ∅
      · rw [if_pos hfirst, if_pos ⟨hfirst, hall⟩, Option.map_map]
        simp only [Function.comp_def, Nat.add_assoc]
      · rw [if_neg hfirst, if_neg fun h => hfirst h.1, Option.map_none]
    · rw [if_neg fun h => hall fun f hf => (hsame f hf).symm.trans (h f hf), if_neg fun h => hall h.2]

theorem add_size? (hu : u.Denotes P F) (hs : s.Denotes P G) :
    (u.add s).size? = if ∀ k ∈ s.keys, F k = ∅ then u.size?.map (· + s.size) else none := by
  have hsize : s.size = (s.entries.toList.map Entry.size).sum := by
    rw [IntSet.size, ← Array.foldl_toList, Words.foldl_add_eq_sum, Nat.zero_add]
  rw [add, ← Array.foldl_toList, foldl_addEntry_size? hs hu, hsize]
  simp only [IntSet.keys, List.forall_mem_map]

theorem addEntry_size?_none (h : u.size? = none) (e : Entry) : (u.addEntry e).size? = none := by
  rw [addEntry]
  split
  · split
    · rfl
    · rw [h, Option.map_none]
  · rw [h, Option.map_none]

theorem add_size?_none (h : u.size? = none) (s : IntSet) : (u.add s).size? = none := by
  rw [add, ← Array.foldl_toList]
  induction s.entries.toList generalizing u with
  | nil => exact h
  | cons e rest ih => exact ih (addEntry_size?_none h e)

theorem addAll_size?_none (h : u.size? = none) (more : List IntSet) :
    (u.addAll more).size? = none := by
  rw [addAll]
  induction more generalizing u with
  | nil => exact h
  | cons s rest ih => exact ih (add_size?_none h s)

theorem Fed.rec_add {motive : List IntSet → LazyUnion → Prop} (empty : motive [] .empty)
    (ofSet : ∀ s, motive [s] (.ofSet s))
    (add : ∀ {sets u}, Fed sets u → motive sets u → ∀ s, motive (sets ++ [s]) (u.add s))
    (h : Fed sets u) : motive sets u := by
  induction h with
  | empty => exact empty
  | ofSet s => exact ofSet s
  | add h s ih => exact add h ih s
  | @addAll sets u h more ih =>
    induction more generalizing sets u with
    | nil =>
      rw [List.append_nil]
      exact ih
    | cons s rest ihrest =>
      rw [List.append_cons]
      exact ihrest (h.add s) (add h ih s)

/-- The number of values of the sets together, if it is the sum of their sizes. -/
def KnowsSize (sets : List IntSet) (u : LazyUnion) : Prop :=
  ∀ n, u.size? = some n ↔ KeysApart sets ∧ n = (sets.map IntSet.size).sum

theorem KnowsSize.add (h : KnowsSize sets u)
    (hu : u.Denotes Chunk.Valid (Operation.union.slotsAmong sets))
    (hsets : ∀ t ∈ sets, t.Valid) (hs : s.Valid) : KnowsSize (sets ++ [s]) (u.add s) := by
  intro n
  have hfresh : (∀ k ∈ s.keys, Operation.union.slotsAmong sets k = ∅) ↔
      ∀ t ∈ sets, t.keys.Disjoint s.keys := by
    have hkey : ∀ k ∈ s.keys, (Operation.union.slotsAmong sets k = ∅ ↔ ∀ t ∈ sets, k ∉ t.keys) := by
      intro k hks
      obtain ⟨e, he, rfl⟩ := List.mem_map.1 hks
      exact Operation.slotsAmong_union_eq_empty hsets (hs.2 e he).1
    constructor
    · intro hnone t ht k hkt hks
      exact (hkey k hks).1 (hnone k hks) t ht hkt
    · intro hdisjoint k hks
      exact (hkey k hks).2 fun t ht hkt => hdisjoint t ht hkt hks
  rw [add_size? hu hs.denotes, keysApart_concat, ← hfresh]
  simp only [Option.ite_none_right_eq_some, Option.map_eq_some_iff, h _, List.map_append,
    List.map_singleton, List.sum_append, List.sum_singleton]
  constructor
  · rintro ⟨hnone, m, ⟨hapart, rfl⟩, rfl⟩
    exact ⟨⟨hapart, hnone⟩, rfl⟩
  · rintro ⟨⟨hapart, hnone⟩, rfl⟩
    exact ⟨hnone, _, ⟨hapart, rfl⟩, rfl⟩

theorem Fed.knowsSize (h : Fed sets u) : (∀ t ∈ sets, t.Valid) → KnowsSize sets u := by
  refine Fed.rec_add (motive := fun sets u => (∀ t ∈ sets, t.Valid) → KnowsSize sets u) ?_ ?_ ?_ h
  · intro _ n
    simp [LazyUnion.empty, KeysApart, eq_comm]
  · intro s _ n
    simp [LazyUnion.ofSet, KeysApart, eq_comm]
  · intro sets u h ih s hall
    obtain ⟨hsets, hs⟩ := List.forall_mem_append.1 hall
    exact (ih hsets).add (h.denotes fun t ht => ⟨_, (hsets t ht).denotes⟩) hsets
      (hs s List.mem_cons_self)

theorem Fed.size?_eq_some_iff (h : Fed sets u) (hsets : ∀ t ∈ sets, t.Valid) :
    u.size? = some n ↔
      KeysApart sets ∧ n = #{v ∈ range domainSize | ∃ t ∈ sets, v ∈ t} := by
  refine (h.knowsSize hsets n).trans (and_congr_right fun hapart => ?_)
  rw [sum_size_eq_card hsets hapart]

theorem Fed.isEmpty_iff (h : Fed sets u) (hsets : ∀ t ∈ sets, t.Valid) :
    u.isEmpty = true ↔ ∀ v, ∀ t ∈ sets, v ∉ t := by
  rw [(h.denotes fun t ht => ⟨_, (hsets t ht).denotes⟩).isEmpty_iff]
  constructor
  · intro hnone v t ht hv
    have hempty := hnone (keyOf v) (keyOf_lt ((hsets t ht).denotes.lt_domainSize hv))
    have hmem : positionOf v ∈ Operation.union.slotsAmong sets (keyOf v) := by
      rw [Operation.mem_slotsAmong, valueAt_keyOf]
      exact ⟨positionOf_lt v, t, ht, hv⟩
    rw [hempty] at hmem
    exact notMem_empty _ hmem
  · intro hnone k hk
    rw [Operation.slotsAmong_union_eq_empty hsets hk]
    intro t ht hkt
    obtain ⟨p, hp⟩ := ((hsets t ht).denotes.mem_keys hk).1 hkt
    exact hnone _ t ht (mem_filter.1 hp).2

/-- Without runs a lazy union and an eager one differ in nothing, not even in a representation. -/
theorem Fed.repair_eq_foldl (h : Fed sets u) (hsets : ∀ t ∈ sets, t.WellFormed)
    (hruns : ∀ t ∈ sets, .runs ∉ t.kinds) (handover : Handover) :
    u.repair = sets.foldl (IntSet.combine .union handover) .empty ∧
      ∀ first rest, sets = first :: rest →
        u.repair = rest.foldl (IntSet.combine .union handover) first := by
  have hplain : ∀ t ∈ sets, t.Denotes (Chunk.Follows .plain) t.slots :=
    fun t ht => (hsets t ht).plain (hruns t ht)
  have hdenote : ∀ t ∈ sets, ∃ F, t.Denotes (Chunk.Follows .plain) F :=
    fun t ht => ⟨_, hplain t ht⟩
  have hrepair := repair_denotes_of_words LazyChunk.repair_words_follows (h.denotes hdenote)
  have hkeeps : Operation.union.Keeps (Chunk.Follows .plain) := Operation.union.keeps_plain
  constructor
  · have hnone : IntSet.empty.Denotes (Chunk.Follows .plain) (Operation.union.slotsAmong []) := by
      rw [Operation.slotsAmong_nil]
      exact IntSet.empty_denotes
    have hfold := IntSet.foldl_combine_denotes_of_keeps hkeeps handover (.inl rfl) hnone hdenote
    rw [List.nil_append] at hfold
    exact hrepair.unique hfold
  · rintro first rest rfl
    have hfirst := hplain first List.mem_cons_self
    rw [← Operation.slotsAmong_singleton .union] at hfirst
    have hfold := IntSet.foldl_combine_denotes_of_keeps hkeeps handover (.inl rfl) hfirst
      fun t ht => hdenote t (List.mem_cons_of_mem first ht)
    rw [List.singleton_append] at hfold
    exact hrepair.unique hfold

/-- Whatever way the sets were added: alone or together, kept or given up. -/
theorem fed_correct (hsets : ∀ t ∈ sets, t.WellFormed) (h : Fed sets u) :
    (∀ n, u.size? = some n ↔
        KeysApart sets ∧ n = #{v ∈ range domainSize | ∃ t ∈ sets, v ∈ t}) ∧
      (u.size? = none → ∀ more, (u.addAll more).size? = none) ∧
      (u.isEmpty = true ↔ ∀ v, ∀ t ∈ sets, v ∉ t) ∧
      (u.repair.Valid ∧ ∀ v, v ∈ u.repair ↔ ∃ t ∈ sets, v ∈ t) ∧
      ((∀ t ∈ sets, .runs ∉ t.kinds) → ∀ handover,
        u.repair = sets.foldl (IntSet.combine .union handover) .empty ∧
          ∀ first rest, sets = first :: rest →
            u.repair = rest.foldl (IntSet.combine .union handover) first) := by
  have hvalid : ∀ t ∈ sets, t.Valid := fun t ht => (hsets t ht).valid
  have hdenotes := h.denotes fun t ht => ⟨_, (hvalid t ht).denotes⟩
  refine ⟨fun n => h.size?_eq_some_iff hvalid, fun hnone more => addAll_size?_none hnone more,
    h.isEmpty_iff hvalid, ?_, fun hruns handover => h.repair_eq_foldl hsets hruns handover⟩
  exact Operation.yields_of_denotes hvalid (repair_denotes Chunk.grade_valid hdenotes)

theorem fed_correct_mixed :
    let s : IntSet := ⟨#[⟨0, .array ⟨#[1, 2, 5]⟩⟩, ⟨7, .array ⟨#[0, 9]⟩⟩]⟩
    let t : IntSet := ⟨#[⟨3, .array ⟨#[4]⟩⟩, ⟨65535, .array ⟨#[65535]⟩⟩]⟩
    let r : IntSet := ⟨#[⟨0, .array ⟨#[5, 8]⟩⟩]⟩
    (∀ q ∈ [s, t, r], q.WellFormed) ∧ (∀ q ∈ [s, t, r], .runs ∉ q.kinds) ∧
      ((LazyUnion.ofSet s).add t).size? = some (s.size + t.size) ∧
      (((LazyUnion.ofSet s).add t).addAll [r]).size? = none ∧
      (∀ more, ((((LazyUnion.ofSet s).add t).addAll [r]).addAll more).size? = none) ∧
      (((LazyUnion.ofSet s).add t).addAll [r]).isEmpty = false ∧
      8 ∈ (((LazyUnion.ofSet s).add t).addAll [r]).repair ∧
      (((LazyUnion.ofSet s).add t).addAll [r]).repair =
        [t, r].foldl (IntSet.combine .union .inPlace) s := by
  intro s t r
  have hsets : ∀ q ∈ [s, t, r], q.WellFormed := by decide
  have hruns : ∀ q ∈ [s, t, r], .runs ∉ q.kinds := by decide
  have hapart : KeysApart [s, t] := by decide
  have hpair : Fed [s, t] ((LazyUnion.ofSet s).add t) := (Fed.ofSet s).add t
  have hall : Fed [s, t, r] (((LazyUnion.ofSet s).add t).addAll [r]) := hpair.addAll [r]
  obtain ⟨hsize, hnone, hempty, ⟨-, hmem⟩, heager⟩ := fed_correct hsets hall
  have hlost : (((LazyUnion.ofSet s).add t).addAll [r]).size? = none := by
    refine Option.eq_none_iff_forall_ne_some.2 fun n hn => ?_
    exact absurd ((hsize n).1 hn).1 (by decide)
  refine ⟨hsets, hruns, ?_, hlost, hnone hlost, ?_, (hmem 8).2 (by decide), ?_⟩
  · have hvalid : ∀ q ∈ [s, t], q.Valid := by decide
    refine ((fed_correct (by decide) hpair).1 _).2 ⟨hapart, ?_⟩
    rw [← sum_size_eq_card hvalid hapart]
    rfl
  · rw [Bool.eq_false_iff, ne_eq, hempty]
    exact fun hnever => hnever 1 s List.mem_cons_self (by decide)
  · exact (heager hruns .inPlace).2 s [t, r] rfl

end LazyUnion

end ChunkedSet
