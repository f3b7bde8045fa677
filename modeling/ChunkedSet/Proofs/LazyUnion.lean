import ChunkedSet.LazyUnion
import ChunkedSet.Proofs.Among
import ChunkedSet.Proofs.SetPoints

/-!
# Lazy unions as assignments

A lazy chunk denotes the set of its bits, counted or not. Adding an entry changes the assignment
at its key, and a repair keeps the assignment.
-/

namespace ChunkedSet

variable {P : Chunk → Prop} {F G : Nat → Finset Nat} {S T : Finset Nat} {u : LazyUnion} {s : IntSet}
  {a b : Nat}

theorem Words.support_orChunk (ws : Words) {c : Chunk} (h : c.Denotes S) :
    (ws.orChunk c).support = ws.support ∪ S := by
  have hws := Block.ofWords_denotes ws
  cases c with
  | array a =>
    have ha : a.Denotes S := h
    have hlist : ws.orChunk (.array a) = a.toList.foldl insert ws := (Array.foldl_toList _).symm
    ext p
    rw [hlist, Finset.mem_union, mem_support, mem_support, Block.contains_foldl_insert ha.1.2,
      Bool.or_eq_true, decide_eq_true_eq, ha.mem_toList]
  | block b => exact (Block.union_denotes hws h).support
  | runs l =>
    have hwords : ∀ (runs : List Run) (b : Block),
        (runs.foldl (fun b r => (b.insertRange r.first r.last).1) b).words =
          runs.foldl (fun ws r => ws.insertRange r.first r.last) b.words := by
      intro runs
      induction runs with
      | nil => exact fun b => rfl
      | cons r rest ih => exact fun b => ih _
    have hsupport := (Block.insertRuns_denotes hws h).support
    rw [Block.insertRuns, ← Array.foldl_toList, hwords] at hsupport
    rw [orChunk, ← Array.foldl_toList]
    exact hsupport

namespace LazyChunk

def Denotes (P : Chunk → Prop) (c : LazyChunk) (S : Finset Nat) : Prop :=
  match c with
  | exact c => c.Denotes S ∧ P c ∧ S.Nonempty
  | words ws => ws.support = S ∧ S.Nonempty

theorem orChunk_denotes {c : LazyChunk} {d : Chunk} (hc : c.Denotes P S) (hd : d.Denotes T) :
    (c.orChunk d).Denotes P (S ∪ T) := by
  cases c with
  | exact c =>
    refine ⟨?_, hc.2.2.mono Finset.subset_union_left⟩
    rw [Words.support_orChunk _ hd, (Chunk.toBits_denotes hc.1).support]
  | words ws =>
    refine ⟨?_, hc.2.mono Finset.subset_union_left⟩
    rw [Words.support_orChunk ws hd, hc.1]

theorem words_denotes (ws : Words) : (Chunk.block (.ofWords ws)).Denotes ws.support :=
  Block.ofWords_denotes ws

theorem repair_words_of_grade (hP : Chunk.Grade P) (ws : Words) : P (words ws).repair :=
  hP.settle (words_denotes ws)

theorem repair_denotes (hP : ∀ ws, P (words ws).repair) {c : LazyChunk} (hc : c.Denotes P S) :
    c.repair.Denotes S ∧ P c.repair ∧ S.Nonempty := by
  cases c with
  | exact c => exact hc
  | words ws =>
    have hblock := words_denotes ws
    rw [hc.1] at hblock
    exact ⟨Chunk.settle_denotes hblock, hP ws, hc.2⟩

end LazyChunk

namespace LazyUnion

def Denotes (P : Chunk → Prop) (u : LazyUnion) (F : Nat → Finset Nat) : Prop :=
  Segment LazyEntry.key (fun x S => x.chunk.Denotes P S) F 0 chunkSize u.entries.toList

theorem empty_denotes : empty.Denotes P fun _ => ∅ := Segment.nil_iff.2 fun _ _ _ => rfl

theorem ofSet_denotes (h : s.Denotes P F) : (ofSet s).Denotes P F := by
  rw [Denotes, ofSet, Array.toList_map]
  exact h.map (fun e he => ⟨rfl, (h.element e he).2.2⟩) fun _ _ _ hempty => hempty

theorem addEntry_entries (u : LazyUnion) (e : Entry) :
    (u.addEntry e).entries = Segment.changeOrInsert LazyEntry.key u.entries e.key ⟨0, .blank⟩
      (fun x => ⟨x.key, x.chunk.orChunk e.chunk⟩) ⟨e.key, .exact e.chunk⟩ := by
  rw [addEntry, Segment.changeOrInsert, below]
  cases (u.entries[partitionPoint (·.key < e.key) u.entries]?).map LazyEntry.key with
  | none => rfl
  | some key =>
    dsimp only
    split
    · rfl
    · rfl

theorem addEntry_denotes (h : u.Denotes P F) {e : Entry} (he : e.Denotes P S)
    (hkey : e.key < chunkSize) (hFG : ∀ k, k ≠ e.key → G k = F k) (hG : G e.key = F e.key ∪ S) :
    (u.addEntry e).Denotes P G := by
  rw [Denotes, addEntry_entries]
  refine h.changeOrInsert_segment (Nat.zero_le _) hkey _ hFG (fun x hx hden => ⟨hx, ?_⟩)
    ⟨rfl, fun hnone => ?_⟩
  · rw [hG]
    exact LazyChunk.orChunk_denotes hden he.1
  · rw [hG, hnone, Finset.empty_union]
    exact he

theorem add_denotes (hu : u.Denotes P F) (hs : s.Denotes P G) :
    (u.add s).Denotes P fun k => F k ∪ G k :=
  hs.foldl_entries (D := Denotes P) Finset.union_empty (fun h hFG => h.congr fun k _ hk => hFG k hk)
    (fun h he hkey => addEntry_denotes h he hkey) hu

theorem repair_denotes_of_words (hP : ∀ ws, P (LazyChunk.words ws).repair) (h : u.Denotes P F) :
    u.repair.Denotes P F := by
  have hfold : ∀ (xs : List LazyEntry) (a : Nat) (out : Array Entry),
      Segment LazyEntry.key (fun x S => x.chunk.Denotes P S) F a chunkSize xs →
      a ≤ chunkSize → Segment Entry.key (Entry.Denotes P) F 0 a out.toList →
      Segment Entry.key (Entry.Denotes P) F 0 chunkSize
        (xs.foldl (fun out x => Entry.pushNonempty out ⟨x.key, x.chunk.repair⟩) out).toList := by
    intro xs
    induction xs with
    | nil =>
      intro a out hxs ha hout
      exact hout.extend (Nat.zero_le a) ha (Segment.nil_iff.1 hxs)
    | cons x rest ih =>
      intro a out hxs ha hout
      obtain ⟨hx, hbefore, hrest⟩ := Segment.cons_iff.1 hxs
      obtain ⟨hden, hgrade, -⟩ := LazyChunk.repair_denotes hP hx.2.2
      exact ih (x.key + 1) _ hrest hx.2.1 (IntSet.pushNonempty_segment
        (e := ⟨x.key, x.chunk.repair⟩) hout (Nat.zero_le a) hx.1 hbefore hden fun _ => hgrade)
  rw [repair, ← Array.foldl_toList]
  exact hfold u.entries.toList 0 #[] h (Nat.zero_le _) (Segment.nil F 0)

theorem repair_denotes (hP : Chunk.Grade P) (h : u.Denotes P F) : u.repair.Denotes P F :=
  repair_denotes_of_words (LazyChunk.repair_words_of_grade hP) h

variable {sets more : List IntSet}

theorem empty_denotes_among : empty.Denotes P (Operation.union.slotsAmong []) := by
  rw [Operation.slotsAmong_nil]
  exact empty_denotes

theorem ofSet_denotes_among (h : s.Denotes P F) :
    (ofSet s).Denotes P (Operation.union.slotsAmong [s]) := by
  rw [Operation.slotsAmong_singleton]
  exact ofSet_denotes h.slots

theorem add_denotes_among (hu : u.Denotes P (Operation.union.slotsAmong sets))
    (hs : s.Denotes P F) : (u.add s).Denotes P (Operation.union.slotsAmong (sets ++ [s])) := by
  rw [Operation.slotsAmong_concat (.inl rfl)]
  exact add_denotes hu hs.slots

theorem addAll_denotes (hu : u.Denotes P (Operation.union.slotsAmong sets))
    (hmore : ∀ s ∈ more, ∃ G, s.Denotes P G) :
    (u.addAll more).Denotes P (Operation.union.slotsAmong (sets ++ more)) := by
  induction more generalizing u sets with
  | nil =>
    rw [List.append_nil]
    exact hu
  | cons s rest ih =>
    obtain ⟨G, hG⟩ := hmore s List.mem_cons_self
    rw [List.append_cons]
    exact ih (add_denotes_among hu hG) fun t ht => hmore t (List.mem_cons_of_mem s ht)

theorem empty_addAll_denotes (hmore : ∀ s ∈ more, ∃ G, s.Denotes P G) :
    (empty.addAll more).Denotes P (Operation.union.slotsAmong more) := by
  have hden := addAll_denotes empty_denotes_among hmore
  rw [List.nil_append] at hden
  exact hden

/-- The unions that a list of sets leads to. Sets that are kept and sets that are given up are
added alike. -/
inductive Fed : List IntSet → LazyUnion → Prop
  | empty : Fed [] .empty
  | ofSet (s : IntSet) : Fed [s] (.ofSet s)
  | add {sets : List IntSet} {u : LazyUnion} (h : Fed sets u) (s : IntSet) :
    Fed (sets ++ [s]) (u.add s)
  | addAll {sets : List IntSet} {u : LazyUnion} (h : Fed sets u) (more : List IntSet) :
    Fed (sets ++ more) (u.addAll more)

theorem Fed.denotes (h : Fed sets u) (hsets : ∀ s ∈ sets, ∃ F, s.Denotes P F) :
    u.Denotes P (Operation.union.slotsAmong sets) := by
  induction h with
  | empty => exact empty_denotes_among
  | ofSet s =>
    obtain ⟨F, hF⟩ := hsets s List.mem_cons_self
    exact ofSet_denotes_among hF
  | add h s ih =>
    obtain ⟨hsets, hs⟩ := List.forall_mem_append.1 hsets
    obtain ⟨F, hF⟩ := hs s List.mem_cons_self
    exact add_denotes_among (ih hsets) hF
  | addAll h more ih =>
    obtain ⟨hsets, hmore⟩ := List.forall_mem_append.1 hsets
    exact addAll_denotes (ih hsets) hmore

end LazyUnion

end ChunkedSet
