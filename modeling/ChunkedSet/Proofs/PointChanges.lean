import ChunkedSet.Proofs.SetPoints

/-!
# Values one at a time

An insertion or removal that changes nothing leaves every entry as it was. A push, a row of
appended values and an insertion of many values lead to the very entries that insertions one after
the other lead to.
-/

namespace ChunkedSet.IntSet

variable {P : Chunk → Prop} {F : Nat → Finset Nat} {s : IntSet} {u v k : Nat} {vs : List Nat}

theorem insert_eq_self (h : s.Denotes P F) (hmem : positionOf v ∈ F (keyOf v)) (hv : v < domainSize) :
    s.insert v = (s, false) := by
  have hp : positionOf v < chunkSize := positionOf_lt v
  rcases index?_spec h (keyOf v) with ⟨e, hkey, hindex, hparts⟩ | ⟨-, hne, -, -⟩
  · have he := (h.element e (by rw [hparts]; simp)).2.2.1
    rw [hkey] at he
    obtain ⟨hlist, hflag⟩ := insertAt_spec hparts (positionOf v)
    have hsame : (e.chunk.insert (positionOf v)).1 = e.chunk := by
      rcases Chunk.insert_eq_or_fits he hp with hstep | hstep
      · exact hstep.2
      · exact absurd hmem hstep.1
    rw [hsame, ← hparts] at hlist
    rw [(Chunk.insert_denotes he hp).2, decide_eq_false (not_not.2 hmem)] at hflag
    rw [insert, withKey, hindex]
    exact Prod.ext (eq_of_toList hlist) hflag
  · rw [h.absent _ (Nat.zero_le _) (keyOf_lt hv) hne] at hmem
    exact absurd hmem (Finset.notMem_empty _)

theorem erase_eq_self (h : s.Denotes P F) (hmem : positionOf v ∉ F (keyOf v)) :
    s.erase v = (s, false) := by
  have hp : positionOf v < chunkSize := positionOf_lt v
  rcases index?_spec h (keyOf v) with ⟨e, hkey, hindex, hparts⟩ | ⟨hindex, -, -, -⟩
  · have he := (h.element e (by rw [hparts]; simp)).2.2
    rw [hkey] at he
    have hsame : e.chunk.erase (positionOf v) = (e.chunk, false) := by
      have hflag := (Chunk.erase_denotes he.1 hp).2
      rw [decide_eq_false hmem] at hflag
      rcases Chunk.erase_eq_or_fits he.1 hp with hstep | hstep
      · exact Prod.ext hstep.2 hflag
      · exact absurd hstep.1 hmem
    have hfull : e.chunk.isEmpty = false := by
      rw [he.1.isEmpty, decide_eq_false he.2.2.ne_empty]
    have hupdate := updateAt_spec hparts .blank (false, false) (Entry.update fun c =>
      ((c.erase (positionOf v)).1, (c.erase (positionOf v)).2, (c.erase (positionOf v)).1.isEmpty))
    rw [Entry.update, hsame, hfull, ← hparts] at hupdate
    rw [erase, hindex]
    dsimp only
    generalize updateAt s.entries _ Entry.blank (false, false) _ = t at hupdate ⊢
    obtain ⟨entries, removed, emptied⟩ := t
    obtain ⟨hlist, hreport⟩ := hupdate
    obtain ⟨rfl, rfl⟩ : removed = false ∧ emptied = false := Prod.mk.inj hreport
    exact Prod.ext (eq_of_toList hlist) rfl
  · rw [erase, hindex]

theorem Valid.insert (hs : s.Valid) (hv : v < domainSize) : (s.insert v).1.Valid :=
  (insert_denotes Chunk.grade_valid hs.denotes hv).1.valid

theorem mem_insert (hs : s.Valid) (hv : v < domainSize) :
    u ∈ (s.insert v).1 ↔ u = v ∨ u ∈ s :=
  (insert_denotes Chunk.grade_valid hs.denotes hv).1.mem_withValue hs.denotes hv

theorem mem_erase (hs : s.Valid) (hv : v < domainSize) :
    u ∈ (s.erase v).1 ↔ u ≠ v ∧ u ∈ s := by
  have h := hs.denotes
  have ht := (erase_denotes Chunk.grade_valid h hv).1
  by_cases hu : u < domainSize
  · rw [ht.mem hu, h.mem hu]
    by_cases hkey : keyOf u = keyOf v
    · rw [hkey, withoutValue_keyOf, Finset.mem_erase]
      refine and_congr_left' (not_congr ⟨fun hpos => ?_, fun heq => by rw [heq]⟩)
      rw [← valueAt_keyOf u, ← valueAt_keyOf v, hkey, hpos]
    · rw [withoutValue_of_ne _ v _ hkey]
      exact (and_iff_right fun heq => hkey (by rw [heq])).symm
  · exact iff_of_false (fun hmem => hu (ht.lt_domainSize hmem))
      fun hmem => hu (h.lt_domainSize hmem.2)

/-- What a step from `s` makes of it: a set of the values with the property. The step reports
whether there is any difference, and leaves all as it was if there is none. -/
structure ChangesTo (s : IntSet) (result : IntSet × Bool) (Q : Nat → Prop) : Prop where
  valid : result.1.Valid
  mem : ∀ u, u ∈ result.1 ↔ Q u
  reports : result.2 = true ↔ ∃ u, ¬(Q u ↔ u ∈ s)
  untouched : result.2 = false → result.1 = s

theorem ChangesTo.unchanged {Q : Nat → Prop} (hs : s.Valid) (hQ : ∀ u, Q u ↔ u ∈ s) :
    s.ChangesTo (s, false) Q where
  valid := hs
  mem := fun u => (hQ u).symm
  reports := iff_of_false Bool.false_ne_true fun ⟨u, hu⟩ => hu (hQ u)
  untouched := fun _ => rfl

theorem ChangesTo.changed {Q : Nat → Prop} {result : IntSet × Bool} (hvalid : result.1.Valid)
    (hmem : ∀ u, u ∈ result.1 ↔ Q u) (hflag : result.2 = true) (hv : ¬(Q v ↔ v ∈ s)) :
    s.ChangesTo result Q where
  valid := hvalid
  mem := hmem
  reports := iff_of_true hflag ⟨v, hv⟩
  untouched := fun hno => by
    rw [hflag] at hno
    cases hno

theorem insert_changes (hs : s.Valid) (hv : v < domainSize) :
    s.ChangesTo (s.insert v) fun u => u = v ∨ u ∈ s := by
  have hpos := hs.denotes.mem hv
  by_cases hmem : v ∈ s
  · rw [insert_eq_self hs.denotes (hpos.1 hmem) hv]
    exact .unchanged hs fun u => or_iff_right_of_imp fun heq => heq ▸ hmem
  · have hflag := (insert_denotes Chunk.grade_valid hs.denotes hv).2
    rw [decide_eq_true (mt hpos.2 hmem)] at hflag
    exact .changed (hs.insert hv) (fun u => mem_insert hs hv) hflag
      fun hiff => hmem (hiff.1 (Or.inl rfl))

theorem erase_changes (hs : s.Valid) (hv : v < domainSize) :
    s.ChangesTo (s.erase v) fun u => u ≠ v ∧ u ∈ s := by
  have hpos := hs.denotes.mem hv
  by_cases hmem : v ∈ s
  · obtain ⟨herase, hflag⟩ := erase_denotes Chunk.grade_valid hs.denotes hv
    rw [decide_eq_true (hpos.1 hmem)] at hflag
    exact .changed herase.valid (fun u => mem_erase hs hv) hflag
      fun hiff => (hiff.2 hmem).1 rfl
  · rw [erase_eq_self hs.denotes (mt hpos.2 hmem)]
    exact .unchanged hs fun u => and_iff_right_of_imp fun hu heq => hmem (heq ▸ hu)

theorem push_eq_insert (hs : s.Valid) (hv : v < domainSize) (hbelow : ∀ u ∈ s, u < v) :
    s.push v = ((s.insert v).1, true) := by
  rw [push_eq hs.denotes, if_pos ((all_max?_iff hs.denotes v).2 hbelow),
    append_eq_insert hs.denotes hv hbelow]

theorem push_eq_self (hs : s.Valid) (hbelow : ¬∀ u ∈ s, u < v) : s.push v = (s, false) := by
  rw [push_eq hs.denotes, if_neg fun hall => hbelow ((all_max?_iff hs.denotes v).1 hall)]

theorem insertEach_spec (hs : s.Valid) (hvs : ∀ v ∈ vs, v < domainSize) :
    (s.insertEach vs).Valid ∧ ∀ u, u ∈ s.insertEach vs ↔ u ∈ s ∨ u ∈ vs := by
  induction vs generalizing s with
  | nil => exact ⟨hs, fun u => (or_iff_left List.not_mem_nil).symm⟩
  | cons v rest ih =>
    have hv := hvs v List.mem_cons_self
    obtain ⟨hvalid, hmem⟩ := ih (hs.insert hv) fun w hw => hvs w (List.mem_cons_of_mem v hw)
    refine ⟨hvalid, fun u => (hmem u).trans ?_⟩
    rw [mem_insert hs hv, List.mem_cons, or_comm (a := u = v), or_assoc]

/-! Values that increase. -/

def Appendable (s : IntSet) (vs : List Nat) : Prop :=
  vs.Pairwise (· < ·) ∧ ∀ v ∈ vs.head?, ∀ u ∈ s, u < v

theorem appendable_nil : s.Appendable [] := ⟨.nil, fun _ h => nomatch h⟩

theorem appendable_cons (hs : s.Valid) (hv : v < domainSize) :
    s.Appendable (v :: vs) ↔ (∀ u ∈ s, u < v) ∧ (s.insert v).1.Appendable vs := by
  simp only [Appendable, List.pairwise_cons, List.head?_cons, Option.mem_some_iff, forall_eq',
    mem_insert hs hv, forall_eq_or_imp]
  constructor
  · rintro ⟨⟨hbefore, hsorted⟩, habove⟩
    refine ⟨habove, hsorted, fun w hw => ?_⟩
    have hvw := hbefore w (List.mem_of_mem_head? hw)
    exact ⟨hvw, fun u hu => (habove u hu).trans hvw⟩
  · rintro ⟨habove, hsorted, hhead⟩
    refine ⟨⟨?_, hsorted⟩, habove⟩
    cases vs with
    | nil => exact fun w hw => absurd hw List.not_mem_nil
    | cons w rest =>
      have hvw := (hhead w rfl).1
      rintro x (_ | ⟨_, hx⟩)
      · exact hvw
      · exact hvw.trans ((List.pairwise_cons.1 hsorted).1 x hx)

/-- `k` values at the front are appendable, and no more are. -/
def TakesUpTo (s : IntSet) (vs : List Nat) (k : Nat) : Prop :=
  Greatest (fun j => j ≤ vs.length ∧ s.Appendable (vs.take j)) (some k)

theorem takesUpTo_zero (hs : s.Valid) (hv : v < domainSize) (hbelow : ¬∀ u ∈ s, u < v) :
    s.TakesUpTo (v :: vs) 0 := by
  refine ⟨⟨Nat.zero_le _, appendable_nil⟩, fun j hj => ?_⟩
  cases j with
  | zero => exact Nat.le_refl 0
  | succ j => exact absurd ((appendable_cons hs hv).1 hj.2).1 hbelow

theorem TakesUpTo.cons (hs : s.Valid) (hv : v < domainSize) (hbelow : ∀ u ∈ s, u < v)
    (h : (s.insert v).1.TakesUpTo vs k) : s.TakesUpTo (v :: vs) (k + 1) := by
  obtain ⟨⟨hle, htake⟩, hmost⟩ := h
  refine ⟨⟨Nat.succ_le_succ hle, (appendable_cons hs hv).2 ⟨hbelow, htake⟩⟩, fun j hj => ?_⟩
  cases j with
  | zero => exact Nat.zero_le _
  | succ j =>
    exact Nat.succ_le_succ (hmost j
      ⟨Nat.le_of_succ_le_succ hj.1, ((appendable_cons hs hv).1 hj.2).2⟩)

theorem appendFrom_eq (hs : s.Valid) (hvs : ∀ v ∈ vs, v < domainSize) {last : Option Nat}
    (hlast : Greatest (· ∈ s) last) (count : Nat) :
    ∃ k, s.TakesUpTo vs k ∧ appendFrom vs last count s =
      (s.insertEach (vs.take k), if k = vs.length then .ok (count + k) else .error ⟨count + k⟩) := by
  induction vs generalizing s last count with
  | nil => exact ⟨0, ⟨⟨Nat.le_refl 0, appendable_nil⟩, fun j hj => hj.1⟩, rfl⟩
  | cons v rest ih =>
    have hv := hvs v List.mem_cons_self
    rw [appendFrom]
    by_cases hbelow : ∀ u ∈ s, u < v
    · have hgo : ¬last.any (v ≤ ·) = true := by
        cases last with
        | none => exact Bool.false_ne_true
        | some m => simpa using hbelow m hlast.1
      have hmax : Greatest (· ∈ (s.insert v).1) (some v) := by
        refine ⟨(mem_insert hs hv).2 (Or.inl rfl), fun u hu => ?_⟩
        rcases (mem_insert hs hv).1 hu with heq | hu
        · exact heq.le
        · exact (hbelow u hu).le
      obtain ⟨k, hk, hrest⟩ := ih (hs.insert hv)
        (fun w hw => hvs w (List.mem_cons_of_mem v hw)) hmax (count + 1)
      refine ⟨k + 1, hk.cons hs hv hbelow, ?_⟩
      rw [if_neg hgo, append_eq_insert hs.denotes hv hbelow, hrest, Nat.add_assoc, Nat.add_comm 1 k,
        List.length_cons]
      simp only [Nat.add_right_cancel_iff]
      rfl
    · have hstop : last.any (v ≤ ·) = true := by
        obtain ⟨u, hu, hle⟩ : ∃ u ∈ s, v ≤ u := by simpa using hbelow
        cases last with
        | none => exact absurd hu (hlast u)
        | some m => exact decide_eq_true (hle.trans (hlast.2 u hu))
      refine ⟨0, takesUpTo_zero hs hv hbelow, ?_⟩
      rw [if_pos hstop, if_neg (List.length_cons ▸ (Nat.succ_ne_zero _).symm)]
      rfl

theorem appendAll_eq (hs : s.Valid) (hvs : ∀ v ∈ vs, v < domainSize) :
    ∃ k, s.TakesUpTo vs k ∧ s.appendAll vs =
      (s.insertEach (vs.take k), if k = vs.length then .ok k else .error ⟨k⟩) := by
  obtain ⟨k, hk, happend⟩ := appendFrom_eq hs hvs (max?_greatest hs.denotes) 0
  rw [Nat.zero_add] at happend
  exact ⟨k, hk, happend⟩

/-- All ways to add values lead to the same entries as inserting them one after the other. -/
theorem pointChanges_correct (hs : s.Valid) :
    (∀ v, v < domainSize →
      s.ChangesTo (s.insert v) (fun u => u = v ∨ u ∈ s) ∧
        s.ChangesTo (s.erase v) (fun u => u ≠ v ∧ u ∈ s) ∧
        ((∀ u ∈ s, u < v) → s.push v = ((s.insert v).1, true)) ∧
        ((¬∀ u ∈ s, u < v) → s.push v = (s, false))) ∧
      ∀ vs, (∀ v ∈ vs, v < domainSize) →
        (∃ k, Greatest (fun j => j ≤ vs.length ∧ s.Appendable (vs.take j)) (some k) ∧
          s.appendAll vs =
            (s.insertEach (vs.take k), if k = vs.length then .ok k else .error ⟨k⟩) ∧
          ∀ u, u ∈ (s.appendAll vs).1 ↔ u ∈ s ∨ u ∈ vs.take k) ∧
        s.insertAll vs = s.insertEach vs ∧ (s.insertAll vs).Valid ∧
          ∀ u, u ∈ s.insertAll vs ↔ u ∈ s ∨ u ∈ vs := by
  refine ⟨fun v hv => ⟨insert_changes hs hv, erase_changes hs hv, push_eq_insert hs hv,
    push_eq_self hs⟩, fun vs hvs => ⟨?_, ?_⟩⟩
  · obtain ⟨k, hk, happend⟩ := appendAll_eq hs hvs
    refine ⟨k, hk, happend, fun u => ?_⟩
    rw [happend]
    exact (insertEach_spec hs fun v hv => hvs v (List.mem_of_mem_take hv)).2 u
  · have hall : s.insertAll vs = s.insertEach vs :=
      insertAll_eq Chunk.grade_valid hs.denotes hvs
    rw [hall]
    exact ⟨rfl, insertEach_spec hs hvs⟩

theorem pointChanges_correct_mixed :
    let s : IntSet := ⟨#[⟨0, .array ⟨#[1, 65535]⟩⟩, ⟨7, .runs ⟨#[⟨0, 2⟩, ⟨5, 9⟩]⟩⟩]⟩
    s.Valid ∧ (s.insert 458753).1 = s ∧ (s.erase 4).1 = s ∧
      s.push 458762 = ((s.insert 458762).1, true) ∧ s.push 458761 = (s, false) ∧
      s.appendAll [458763, 458790, 3] = (s.insertEach [458763, 458790], .error ⟨2⟩) ∧
      s.insertAll [9, 458755, 9] = s.insertEach [9, 458755, 9] := by
  intro s
  have hs : s.Valid := by decide
  have hmax : ∀ v, (∀ u ∈ s, u < v) ↔ s.max?.all (· < v) = true :=
    fun v => (all_max?_iff hs.denotes v).symm
  obtain ⟨hpoints, hlists⟩ := pointChanges_correct hs
  refine ⟨hs, ?_, ?_, ?_, ?_, ?_, ?_⟩
  · exact (hpoints 458753 (by decide)).1.untouched (by decide)
  · exact (hpoints 4 (by decide)).2.1.untouched (by decide)
  · exact (hpoints 458762 (by decide)).2.2.1 ((hmax _).2 (by decide))
  · exact (hpoints 458761 (by decide)).2.2.2 fun hall => absurd ((hmax _).1 hall) (by decide)
  · obtain ⟨k, ⟨⟨hle, htake⟩, hmost⟩, happend, -⟩ := (hlists [458763, 458790, 3] (by decide)).1
    have htwo : s.Appendable [458763, 458790] := by
      refine ⟨by decide, ?_⟩
      rintro v ⟨⟩
      exact (hmax _).2 (by decide)
    have hge : 2 ≤ k := hmost 2 ⟨by decide, htwo⟩
    have hne : k ≠ 3 := by
      rintro rfl
      exact absurd htake.1 (by decide)
    have hle : k ≤ 3 := hle
    obtain rfl : k = 2 := by omega
    exact happend
  · exact (hlists [9, 458755, 9] (by decide)).2.1

end ChunkedSet.IntSet
