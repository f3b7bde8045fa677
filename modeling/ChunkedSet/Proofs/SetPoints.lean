import Mathlib.Logic.Function.Basic
import ChunkedSet.IntSet.Points
import ChunkedSet.Proofs.ChunkUpdate
import ChunkedSet.Proofs.SetDenotes

/-!
# Single values of a set

Insertion, removal and appending change the assignment at the key of the value. An entry that a
step leaves alone keeps its chunk, and every other chunk is settled.
-/

namespace ChunkedSet

variable {P : Chunk → Prop} {F G : Nat → Finset Nat} {S : Finset Nat} {s : IntSet} {v p : Nat}

/-- A chunk that was left alone keeps its grade, and a settled one has every grade. -/
theorem Entry.denotes_of_step (hP : Chunk.Grade P) {c d : Chunk} {key : Nat} (hd : d.Denotes S)
    (hS : S.Nonempty) (hc : P c) (hstep : d = c ∨ d.fits = true) :
    (⟨key, d⟩ : Entry).Denotes P S := by
  refine ⟨hd, ?_, hS⟩
  rcases hstep with heq | hfits
  · exact heq ▸ hc
  · exact hP d hd.valid hfits

namespace IntSet

def withValue (F : Nat → Finset Nat) (v : Nat) : Nat → Finset Nat :=
  Function.update F (keyOf v) (Insert.insert (positionOf v) (F (keyOf v)))

def withoutValue (F : Nat → Finset Nat) (v : Nat) : Nat → Finset Nat :=
  Function.update F (keyOf v) ((F (keyOf v)).erase (positionOf v))

theorem index?_spec (h : s.Denotes P F) (k : Nat) :
    (∃ e, e.key = k ∧ s.index? k = some (s.entries.toList.filter (·.key < k)).length ∧
      s.entries.toList =
        s.entries.toList.filter (·.key < k) ++ e :: s.entries.toList.filter (k < ·.key)) ∨
    s.index? k = none ∧ (∀ e ∈ s.entries.toList, e.key ≠ k) ∧
      s.below k = (s.entries.toList.filter (·.key < k)).length ∧
      s.entries.toList =
        s.entries.toList.filter (·.key < k) ++ s.entries.toList.filter (k < ·.key) := by
  have hbelow : s.below k = (s.entries.toList.filter (·.key < k)).length :=
    h.partitionPoint_lt k
  rcases h.getElem?_place k with ⟨e, hkey, hget, hparts⟩ | ⟨hget, hne, hparts⟩
  · have hget : s.entries[s.below k]? = some e := hget
    refine Or.inl ⟨e, hkey, ?_, hparts⟩
    rw [index?, hget, ← hbelow]
    exact if_pos hkey
  · refine Or.inr ⟨?_, hne, hbelow, hparts⟩
    rw [index?]
    cases hcase : s.entries[s.below k]? with
    | none => rfl
    | some e => exact if_neg (hget e hcase)

theorem eq_of_toList {s t : IntSet} (h : s.entries.toList = t.entries.toList) : s = t :=
  congrArg IntSet.mk (Array.toList_inj.1 h)

theorem index?_of_parts (h : s.Denotes P F) {front back : List Entry} {e : Entry}
    (hparts : s.entries.toList = front ++ e :: back) : s.index? e.key = some front.length := by
  have hsorted := h.sorted
  rw [hparts, List.pairwise_append, List.pairwise_cons] at hsorted
  obtain ⟨-, ⟨hback, -⟩, hfront⟩ := hsorted
  have hfilter : s.entries.toList.filter (·.key < e.key) = front := by
    have hall : front.filter (·.key < e.key) = front :=
      List.filter_eq_self.2 fun f hf => decide_eq_true (hfront f hf e List.mem_cons_self)
    have hnone : back.filter (·.key < e.key) = [] :=
      List.filter_eq_nil_iff.2 fun f hf => by
        have hlt := hback f hf
        simpa using hlt.le
    rw [hparts, List.filter_append, hall, List.filter_cons_of_neg (by simp), hnone,
      List.append_nil]
  rcases index?_spec h e.key with ⟨f, -, hindex, -⟩ | ⟨-, hne, -⟩
  · rw [hindex, hfilter]
  · exact absurd rfl (hne e (by rw [hparts]; simp))

theorem withValue_of_ne (F : Nat → Finset Nat) (v k : Nat) (hk : k ≠ keyOf v) :
    withValue F v k = F k :=
  Function.update_of_ne hk _ F

theorem withValue_keyOf (F : Nat → Finset Nat) (v : Nat) :
    withValue F v (keyOf v) = Insert.insert (positionOf v) (F (keyOf v)) :=
  Function.update_self _ _ F

theorem withoutValue_of_ne (F : Nat → Finset Nat) (v k : Nat) (hk : k ≠ keyOf v) :
    withoutValue F v k = F k :=
  Function.update_of_ne hk _ F

theorem withoutValue_keyOf (F : Nat → Finset Nat) (v : Nat) :
    withoutValue F v (keyOf v) = (F (keyOf v)).erase (positionOf v) :=
  Function.update_self _ _ F

theorem insertAt_spec {front back : List Entry} {e : Entry}
    (hparts : s.entries.toList = front ++ e :: back) (p : Nat) :
    (s.insertAt front.length p).1.entries.toList =
        front ++ ⟨e.key, (e.chunk.insert p).1⟩ :: back ∧
      (s.insertAt front.length p).2 = (e.chunk.insert p).2 :=
  updateAt_spec hparts .blank false (Entry.update (·.insert p))

/-- The entry that a value goes to, which is an empty one if the set has none for the key. -/
theorem withKey_spec (h : s.Denotes P F) {k : Nat} (hk : k < chunkSize) :
    ∃ e : Entry, e.key = k ∧ e.chunk.Denotes (F k) ∧ ((F k).Nonempty → P e.chunk) ∧
      (F k = ∅ → e.chunk = .empty) ∧
      (s.withKey k).2 = (s.entries.toList.filter (·.key < k)).length ∧
      (s.withKey k).1.entries.toList =
        s.entries.toList.filter (·.key < k) ++ e :: s.entries.toList.filter (k < ·.key) := by
  rcases index?_spec h k with ⟨e, hkey, hindex, hparts⟩ | ⟨hindex, hne, hbelow, hparts⟩
  · have he := (h.element e (by rw [hparts]; simp)).2.2
    rw [hkey] at he
    rw [withKey, hindex]
    exact ⟨e, hkey, he.1, fun _ => he.2.1, fun hnone => absurd hnone he.2.2.ne_empty, rfl, hparts⟩
  · have hnone : F k = ∅ := h.absent k (Nat.zero_le k) hk hne
    rw [withKey, hindex, hbelow, hnone]
    exact ⟨⟨k, .empty⟩, rfl, Chunk.empty_denotes, fun hF => absurd hF Finset.not_nonempty_empty,
      fun _ => rfl, rfl, insertIdx_spec hparts _⟩

theorem insert_spec (h : s.Denotes P F) (hv : v < domainSize) :
    ∃ e : Entry, e.key = keyOf v ∧ e.chunk.Denotes (F (keyOf v)) ∧
      ((F (keyOf v)).Nonempty → P e.chunk) ∧ (F (keyOf v) = ∅ → e.chunk = .empty) ∧
      (s.withKey (keyOf v)).2 = (s.entries.toList.filter (·.key < keyOf v)).length ∧
      (s.insert v).1.entries.toList = s.entries.toList.filter (·.key < keyOf v) ++
        ⟨e.key, (e.chunk.insert (positionOf v)).1⟩ :: s.entries.toList.filter (keyOf v < ·.key) ∧
      (s.insert v).2 = (e.chunk.insert (positionOf v)).2 := by
  obtain ⟨e, hkey, hden, hgrade, hnone, hplace, hparts⟩ := withKey_spec h (keyOf_lt hv)
  obtain ⟨hlist, hflag⟩ := insertAt_spec hparts (positionOf v)
  rw [← hplace] at hlist hflag
  exact ⟨e, hkey, hden, hgrade, hnone, hplace, hlist, hflag⟩

theorem insert_denotes (hP : Chunk.Grade P) (h : s.Denotes P F) (hv : v < domainSize) :
    (s.insert v).1.Denotes P (withValue F v) ∧
      (s.insert v).2 = decide (positionOf v ∉ F (keyOf v)) := by
  have hp : positionOf v < chunkSize := positionOf_lt v
  obtain ⟨e, hkey, he, hgrade, -, -, hlist, hflag⟩ := insert_spec h hv
  obtain ⟨hden, hchanged⟩ := Chunk.insert_denotes he hp
  have hentry : (⟨e.key, (e.chunk.insert (positionOf v)).1⟩ : Entry).Denotes P
      (withValue F v (keyOf v)) := by
    rw [withValue_keyOf]
    refine ⟨hden, ?_, Finset.insert_nonempty _ _⟩
    rcases Chunk.insert_eq_or_fits he hp with ⟨hmem, hsame⟩ | ⟨-, hfits⟩
    · rw [hsame]
      exact hgrade ⟨_, hmem⟩
    · exact hP _ hden.valid hfits
  have hput := h.put (x := ⟨e.key, (e.chunk.insert (positionOf v)).1⟩) (Nat.zero_le _)
    (keyOf_lt hv) hkey (withValue_of_ne F v) hentry
  rw [← hlist] at hput
  exact ⟨hput, hflag.trans hchanged⟩

theorem erase_denotes (hP : Chunk.Grade P) (h : s.Denotes P F) (hv : v < domainSize) :
    (s.erase v).1.Denotes P (withoutValue F v) ∧
      (s.erase v).2 = decide (positionOf v ∈ F (keyOf v)) := by
  have hp : positionOf v < chunkSize := positionOf_lt v
  rcases index?_spec h (keyOf v) with ⟨e, hkey, hindex, hparts⟩ | ⟨hindex, hne, -, -⟩
  · have he := (h.element e (by rw [hparts]; simp)).2.2
    rw [hkey] at he
    obtain ⟨hden, hflag⟩ := Chunk.erase_denotes he.1 hp
    have hupdate := updateAt_spec hparts .blank (false, false) (Entry.update fun c =>
      ((c.erase (positionOf v)).1, (c.erase (positionOf v)).2, (c.erase (positionOf v)).1.isEmpty))
    rw [erase, hindex]
    dsimp only
    generalize updateAt s.entries _ Entry.blank (false, false) _ = u at hupdate ⊢
    obtain ⟨entries, removed, emptied⟩ := u
    obtain ⟨hlist, hreport⟩ := hupdate
    obtain ⟨rfl, rfl⟩ : removed = (e.chunk.erase (positionOf v)).2 ∧
        emptied = (e.chunk.erase (positionOf v)).1.isEmpty := Prod.mk.inj hreport
    refine ⟨?_, hflag⟩
    dsimp only
    split
    · rename_i hempty
      have hnone : withoutValue F v (keyOf v) = ∅ := by
        rw [hden.isEmpty, decide_eq_true_eq] at hempty
        rw [withoutValue_keyOf, hempty]
      have hdrop := h.drop (Nat.zero_le _) (keyOf_lt hv) (withoutValue_of_ne F v) hnone
      rw [← eraseIdx_spec hlist] at hdrop
      exact hdrop
    · rename_i hkept
      rw [Bool.not_eq_true] at hkept
      have hentry : (⟨e.key, (e.chunk.erase (positionOf v)).1⟩ : Entry).Denotes P
          (withoutValue F v (keyOf v)) := by
        rw [withoutValue_keyOf]
        refine Entry.denotes_of_step hP hden (hden.nonempty hkept) he.2.1 ?_
        rcases Chunk.erase_eq_or_fits he.1 hp with hstep | hstep
        · exact Or.inl hstep.2
        · exact Or.inr hstep.2
      have hput := h.put (x := ⟨e.key, (e.chunk.erase (positionOf v)).1⟩) (Nat.zero_le _)
        (keyOf_lt hv) hkey (withoutValue_of_ne F v) hentry
      have hlist : entries.toList = s.entries.toList.filter (·.key < keyOf v) ++
          ⟨e.key, (e.chunk.erase (positionOf v)).1⟩ ::
            s.entries.toList.filter (keyOf v < ·.key) := hlist
      rw [← hlist] at hput
      exact hput
  · have hnone : F (keyOf v) = ∅ := h.absent _ (Nat.zero_le _) (keyOf_lt hv) hne
    have hsame : withoutValue F v = F := by
      rw [withoutValue, hnone, Finset.erase_empty, ← hnone, Function.update_eq_self]
    rw [erase, hindex, hsame, hnone]
    exact ⟨h, rfl⟩

/-! Values behind all others. -/

theorem mem_of_position (h : s.Denotes P F) {e : Entry} (he : e ∈ s.entries.toList)
    (hp : p ∈ F e.key) : valueAt e.key p ∈ s := by
  have hden := (h.element e he).2.2.1
  have hlt := hden.lt hp
  refine (mem_def s _).2 ⟨e, he, (keyOf_valueAt _ hlt).symm, ?_⟩
  rw [positionOf_valueAt _ hlt]
  exact (hden.2 p).2 hp

theorem key_le_of_lt (h : s.Denotes P F) (hlast : ∀ u ∈ s, u < v) {e : Entry}
    (he : e ∈ s.entries.toList) : e.key ≤ keyOf v := by
  obtain ⟨p, hp⟩ := (h.element e he).2.2.2.2
  have hlt := hlast _ (mem_of_position h he hp)
  unfold valueAt at hlt
  unfold keyOf
  omega

theorem position_lt_of_lt (h : s.Denotes P F) (hlast : ∀ u ∈ s, u < v) {e : Entry}
    (he : e ∈ s.entries.toList) (hkey : e.key = keyOf v) (hp : p ∈ F e.key) : p < positionOf v := by
  have hlt := hlast _ (mem_of_position h he hp)
  have hsize := (h.element e he).2.2.1.lt hp
  rw [hkey] at hlt
  unfold valueAt keyOf at hlt
  unfold chunkSize at hsize
  unfold positionOf
  omega

theorem append_eq_insert (h : s.Denotes P F) (hv : v < domainSize) (hlast : ∀ u ∈ s, u < v) :
    s.append v = (s.insert v).1 := by
  have hp : positionOf v < chunkSize := positionOf_lt v
  have hnone : s.entries.toList.filter (keyOf v < ·.key) = [] :=
    List.filter_eq_nil_iff.2 fun e he => by
      have hle := key_le_of_lt h hlast he
      simpa using hle
  rcases h.eq_parts (keyOf v) with ⟨e, hkey, hparts⟩ | ⟨hne, hparts⟩
  · have hin : e ∈ s.entries.toList := by
      rw [hparts]
      simp
    have hends := hparts
    rw [hnone] at hends
    have hsize : s.entries.size - 1 = (s.entries.toList.filter (·.key < keyOf v)).length := by
      have hlen := congrArg List.length hends
      rw [List.length_append, List.length_singleton, Array.length_toList] at hlen
      omega
    have hback : s.entries.back?.map Entry.key = some (keyOf v) := by
      have hget := congrArg List.getLast? hends
      rw [List.getLast?_concat, Array.getLast?_toList] at hget
      rw [hget, Option.map_some, hkey]
    have hchunk : e.chunk.append (positionOf v) = (e.chunk.insert (positionOf v)).1 :=
      Chunk.append_eq_insert (h.element e hin).2.2.1 hp fun q hq =>
        position_lt_of_lt h hlast hin hkey hq
    have hindex := index?_of_parts h hparts
    rw [hkey] at hindex
    have happend := updateAt_spec hparts .blank ()
      (Entry.update fun c => (c.append (positionOf v), ()))
    have hinsert := (insertAt_spec hparts (positionOf v)).1
    rw [← hchunk] at hinsert
    rw [append, if_pos hback, hsize, insert, withKey, hindex]
    exact eq_of_toList (happend.1.trans hinsert.symm)
  · have hempty : F (keyOf v) = ∅ := h.absent _ (Nat.zero_le _) (keyOf_lt hv) hne
    have hback : s.entries.back?.map Entry.key ≠ some (keyOf v) := fun hkey => by
      obtain ⟨e, he, heq⟩ := Option.map_eq_some_iff.1 hkey
      rw [← Array.getLast?_toList] at he
      exact hne e (List.mem_of_getLast? he) heq
    obtain ⟨e, hkey, -, -, hchunk, -, hlist, -⟩ := insert_spec h hv
    rw [hnone, List.append_nil] at hparts
    rw [hchunk hempty, hkey, hnone, ← hparts, ← Chunk.ofRange_self_eq_insert hp] at hlist
    rw [append, if_neg hback]
    refine eq_of_toList (Eq.trans ?_ hlist.symm)
    rw [Array.toList_push, Entry.single]

theorem append_denotes (hP : Chunk.Grade P) (h : s.Denotes P F) (hv : v < domainSize)
    (hlast : ∀ u ∈ s, u < v) : (s.append v).Denotes P (withValue F v) := by
  rw [append_eq_insert h hv hlast]
  exact (insert_denotes hP h hv).1

theorem eq_nil_or_exists_last (h : s.Denotes P F) :
    s.entries.toList = [] ∧ s.entries.back? = none ∨
      ∃ front e p, s.entries.toList = front ++ [e] ∧ s.entries.back? = some e ∧
        s.entries.size - 1 = front.length ∧ e.chunk.max? = some p ∧
          Greatest (· ∈ F e.key) (some p) := by
  rcases eq_nil_or_last s.entries with hnil | ⟨front, e, hl, hback, -⟩
  · exact Or.inl hnil
  · have hin : e ∈ s.entries.toList := by
      rw [hl]
      simp
    have hsize : s.entries.size - 1 = front.length := by
      have hlen := congrArg List.length hl
      rw [List.length_append, List.length_singleton, Array.length_toList] at hlen
      omega
    have he := (h.element e hin).2.2
    have hmax := Chunk.max?_greatest he.1
    cases hm : e.chunk.max? with
    | none =>
      rw [hm] at hmax
      obtain ⟨p, hp⟩ := he.2.2
      exact absurd hp (hmax p)
    | some p =>
      rw [hm] at hmax
      exact Or.inr ⟨front, e, p, hl, hback, hsize, hm, hmax⟩

theorem max?_eq_some {e : Entry} (hback : s.entries.back? = some e) (hp : e.chunk.max? = some p) :
    s.max? = some (valueAt e.key p) := by
  rw [max?, hback, Option.bind_some, hp, Option.map_some, Entry.value]

theorem max?_greatest (h : s.Denotes P F) : Greatest (· ∈ s) s.max? := by
  rcases eq_nil_or_exists_last h with ⟨hl, hback⟩ | ⟨front, e, p, hl, hback, -, hm, hmax⟩
  · rw [max?, hback]
    intro v hv
    obtain ⟨e, he, -⟩ := (mem_def s v).1 hv
    rw [hl] at he
    exact absurd he List.not_mem_nil
  · have hin : e ∈ s.entries.toList := by
      rw [hl]
      simp
    have hlast : ∀ f ∈ s.entries.toList, f.key < e.key ∨ f = e := fun f hf => by
      have hsorted := h.sorted
      rw [hl, List.pairwise_append] at hsorted
      rw [hl] at hf
      rcases List.mem_append.1 hf with hf | hf
      · exact Or.inl (hsorted.2.2 f hf e (List.mem_singleton.2 rfl))
      · exact Or.inr (List.mem_singleton.1 hf)
    rw [max?_eq_some hback hm]
    refine ⟨mem_of_position h hin hmax.1, fun v hv => ?_⟩
    obtain ⟨f, hf, hkey, hmem⟩ := (mem_def s v).1 hv
    unfold keyOf at hkey
    rcases hlast f hf with hlt | rfl
    · unfold valueAt
      omega
    · have hle := hmax.2 _ (((h.element f hf).2.2.1.2 _).1 hmem)
      unfold positionOf at hle
      unfold valueAt
      omega

theorem all_max?_iff (h : s.Denotes P F) (v : Nat) :
    s.max?.all (· < v) = true ↔ ∀ u ∈ s, u < v := by
  have hmax := max?_greatest h
  cases hm : s.max? with
  | none =>
    rw [hm] at hmax
    exact iff_of_true rfl fun u hu => absurd hu (hmax u)
  | some last =>
    rw [hm] at hmax
    rw [Option.all_some, decide_eq_true_eq]
    exact ⟨fun hlt u hu => lt_of_le_of_lt (hmax.2 u hu) hlt, fun hlt => hlt _ hmax.1⟩

theorem push_of_key_eq {front : List Entry} {e : Entry} (hl : s.entries.toList = front ++ [e])
    (hback : s.entries.back? = some e) (hsize : s.entries.size - 1 = front.length)
    (hkey : e.key = keyOf v) :
    s.push v =
      if e.chunk.max?.all (· < positionOf v) then (s.append v, true) else (s, false) := by
  have hpush := updateAt_spec hl .blank false (Entry.update (·.push (positionOf v)))
  have happend := updateAt_spec hl .blank ()
    (Entry.update fun c => (c.append (positionOf v), ()))
  have hlast : s.append v = ⟨(updateAt s.entries front.length .blank ()
      (Entry.update fun c => (c.append (positionOf v), ()))).1⟩ := by
    rw [append, hback, Option.map_some, if_pos (congrArg some hkey), hsize]
  have hstep := Chunk.push_eq e.chunk (positionOf v)
  rw [Entry.update, hstep] at hpush
  rw [push, hback]
  dsimp only
  rw [if_neg (Nat.not_lt.2 hkey.le), if_pos hkey, hsize, hlast]
  split
  · rename_i hall
    rw [if_pos hall] at hpush
    exact Prod.ext (eq_of_toList (hpush.1.trans happend.1.symm)) hpush.2
  · rename_i hall
    rw [if_neg hall] at hpush
    exact Prod.ext (eq_of_toList (hpush.1.trans hl.symm)) hpush.2

theorem push_eq (h : s.Denotes P F) (v : Nat) :
    s.push v = if s.max?.all (· < v) then (s.append v, true) else (s, false) := by
  rcases eq_nil_or_exists_last h with ⟨-, hback⟩ | ⟨front, e, p, hl, hback, hsize, hm, hmax⟩
  · rw [push, append, max?, hback]
    rfl
  · have hin : e ∈ s.entries.toList := by
      rw [hl]
      simp
    have hplt := (h.element e hin).2.2.1.lt hmax.1
    unfold chunkSize at hplt
    rw [max?_eq_some hback hm, Option.all_some]
    rcases Nat.lt_trichotomy (keyOf v) e.key with hlt | heq | hgt
    · have hnot : ¬valueAt e.key p < v := by
        unfold keyOf at hlt
        unfold valueAt
        omega
      rw [push, hback]
      dsimp only
      rw [if_pos hlt, decide_eq_false hnot, if_neg Bool.false_ne_true]
    · have hiff : valueAt e.key p < v ↔ p < positionOf v := by
        unfold keyOf at heq
        unfold valueAt positionOf
        omega
      rw [push_of_key_eq hl hback hsize heq.symm, hm, Option.all_some, decide_eq_decide.2 hiff]
    · have hlt : valueAt e.key p < v := by
        unfold keyOf at hgt
        unfold valueAt
        omega
      have happend : s.append v = ⟨s.entries.push (.single (keyOf v) (positionOf v))⟩ := by
        rw [append, hback, Option.map_some, if_neg fun heq => hgt.ne (Option.some.inj heq)]
      rw [push, hback]
      dsimp only
      rw [if_neg (Nat.not_lt.2 hgt.le), if_neg hgt.ne, decide_eq_true hlt, if_pos rfl, happend]

theorem push_denotes (hP : Chunk.Grade P) (h : s.Denotes P F) (hv : v < domainSize) :
    ∃ G, (s.push v).1.Denotes P G := by
  rw [push_eq h]
  split
  · rename_i hall
    exact ⟨_, append_denotes hP h hv ((all_max?_iff h v).1 hall)⟩
  · exact ⟨F, h⟩

/-! Sequences of values. -/

def insertEach (s : IntSet) (values : List Nat) : IntSet :=
  values.foldl (fun s v => (s.insert v).1) s

theorem insertEach_denotes (hP : Chunk.Grade P) (h : s.Denotes P F) {values : List Nat}
    (hvalues : ∀ v ∈ values, v < domainSize) :
    (s.insertEach values).Denotes P (values.foldl withValue F) := by
  induction values generalizing s F with
  | nil => exact h
  | cons v rest ih =>
    have hstep := (insert_denotes hP h (hvalues v List.mem_cons_self)).1
    exact ih hstep fun u hu => hvalues u (List.mem_cons_of_mem v hu)

theorem index?_insert (h : s.Denotes P F) (hv : v < domainSize)
    (hinsert : (s.insert v).1.Denotes P G) :
    (s.insert v).1.index? (keyOf v) = some (s.withKey (keyOf v)).2 := by
  obtain ⟨e, hkey, -, -, -, hplace, hlist, -⟩ := insert_spec h hv
  have hindex := index?_of_parts hinsert hlist
  dsimp only at hindex
  rw [← hkey, hindex, hkey, hplace]

theorem withKeyFrom_eq {current : Option (Nat × Nat)}
    (hcurrent : ∀ key place, current = some (key, place) → s.index? key = some place) (k : Nat) :
    s.withKeyFrom current k = s.withKey k := by
  rw [withKeyFrom]
  split
  · rename_i hfilter
    obtain ⟨heq, hkey⟩ := Option.filter_eq_some_iff.1 hfilter
    rw [withKey, ← of_decide_eq_true hkey, hcurrent _ _ heq]
  · rfl

theorem insertAllFrom_eq (hP : Chunk.Grade P) (h : s.Denotes P F) {values : List Nat}
    (hvalues : ∀ v ∈ values, v < domainSize) {current : Option (Nat × Nat)}
    (hcurrent : ∀ key place, current = some (key, place) → s.index? key = some place) :
    insertAllFrom values current s = s.insertEach values := by
  induction values generalizing s F current with
  | nil => rfl
  | cons v rest ih =>
    have hv := hvalues v List.mem_cons_self
    have hinsert := (insert_denotes hP h hv).1
    rw [insertAllFrom, withKeyFrom_eq hcurrent, insertEach, List.foldl_cons]
    refine ih hinsert (fun u hu => hvalues u (List.mem_cons_of_mem v hu)) ?_
    rintro key place ⟨⟩
    exact index?_insert h hv hinsert

theorem insertAll_eq (hP : Chunk.Grade P) (h : s.Denotes P F) {values : List Nat}
    (hvalues : ∀ v ∈ values, v < domainSize) :
    s.insertAll values = s.insertEach values :=
  insertAllFrom_eq hP h hvalues fun _ _ hnone => nomatch hnone

theorem insertAll_denotes (hP : Chunk.Grade P) (h : s.Denotes P F) {values : List Nat}
    (hvalues : ∀ v ∈ values, v < domainSize) :
    (s.insertAll values).Denotes P (values.foldl withValue F) := by
  rw [insertAll_eq hP h hvalues]
  exact insertEach_denotes hP h hvalues

theorem Denotes.mem_withValue {t : IntSet} (ht : t.Denotes P (withValue F v)) (h : s.Denotes P F)
    (hv : v < domainSize) {u : Nat} : u ∈ t ↔ u = v ∨ u ∈ s := by
  by_cases hu : u < domainSize
  · rw [ht.mem hu, h.mem hu]
    by_cases hkey : keyOf u = keyOf v
    · rw [hkey, withValue_keyOf, Finset.mem_insert]
      refine or_congr_left ⟨fun hpos => ?_, fun heq => by rw [heq]⟩
      rw [← valueAt_keyOf u, ← valueAt_keyOf v, hkey, hpos]
    · rw [withValue_of_ne F v _ hkey]
      exact (or_iff_right fun heq => hkey (by rw [heq])).symm
  · have hne : u ≠ v := fun heq => hu (heq ▸ hv)
    exact iff_of_false (fun hmem => hu (ht.lt_domainSize hmem))
      fun hor => hor.elim hne fun hmem => hu (h.lt_domainSize hmem)

theorem mem_append (hP : Chunk.Grade P) (h : s.Denotes P F) (hv : v < domainSize)
    (hlast : ∀ u ∈ s, u < v) {u : Nat} : u ∈ s.append v ↔ u = v ∨ u ∈ s :=
  (append_denotes hP h hv hlast).mem_withValue h hv

theorem appendFrom_denotes (hP : Chunk.Grade P) (h : s.Denotes P F) {values : List Nat}
    (hvalues : ∀ v ∈ values, v < domainSize) {last : Option Nat} (hlast : Greatest (· ∈ s) last)
    (count : Nat) :
    ∃ n, (appendFrom values last count s).1.Denotes P ((values.take n).foldl withValue F) := by
  induction values generalizing s F last count with
  | nil => exact ⟨0, h⟩
  | cons v rest ih =>
    have hv := hvalues v List.mem_cons_self
    rw [appendFrom]
    split
    · exact ⟨0, h⟩
    · rename_i hno
      have hbelow : ∀ u ∈ s, u < v := fun u hu => by
        cases last with
        | none => exact absurd hu (hlast u)
        | some m =>
          have hle := hlast.2 u hu
          rw [Option.any_some, decide_eq_true_eq] at hno
          omega
      have hmax : Greatest (· ∈ s.append v) (some v) :=
        ⟨(mem_append hP h hv hbelow).2 (Or.inl rfl), fun u hu => by
          rcases (mem_append hP h hv hbelow).1 hu with heq | hu
          · exact heq.le
          · exact (hbelow u hu).le⟩
      obtain ⟨n, hn⟩ := ih (append_denotes hP h hv hbelow)
        (fun u hu => hvalues u (List.mem_cons_of_mem v hu)) hmax (count + 1)
      exact ⟨n + 1, hn⟩

theorem appendAll_denotes (hP : Chunk.Grade P) (h : s.Denotes P F) {values : List Nat}
    (hvalues : ∀ v ∈ values, v < domainSize) :
    ∃ n, (s.appendAll values).1.Denotes P ((values.take n).foldl withValue F) :=
  appendFrom_denotes hP h hvalues (max?_greatest h) 0

theorem empty_denotes : empty.Denotes P fun _ => ∅ := Segment.nil_iff.2 fun _ _ _ => rfl

theorem full_denotes (hP : Chunk.Grade P) :
    full.Denotes P fun _ => Finset.Icc 0 lastPosition := by
  have hlist : full.entries.toList = (List.range chunkSize).map fun key => ⟨key, .full⟩ := by
    simp [full]
  have hkeys : Segment id (fun _ _ => True) (fun _ => Finset.Icc 0 lastPosition) 0 chunkSize
      (List.range chunkSize) :=
    ⟨List.pairwise_lt_range, fun k hk => ⟨Nat.zero_le _, List.mem_range.1 hk, trivial⟩,
      fun k _ hk hne => absurd rfl (hne k (List.mem_range.2 hk))⟩
  rw [Denotes, hlist]
  refine hkeys.map (fun k _ => ⟨rfl, ?_⟩) fun _ _ _ hempty => hempty
  exact Entry.denotes_of_fits hP Chunk.full_denotes Chunk.fits_full ⟨0, by simp⟩

end IntSet

end ChunkedSet
