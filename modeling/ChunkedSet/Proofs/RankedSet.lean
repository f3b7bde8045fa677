import ChunkedSet.Proofs.SetRanges
import ChunkedSet.Proofs.SetTrim
import ChunkedSet.RankedSession

/-!
# Ranked sets

The cached sums of a ranked set are those of the set as it is. Sums that are up to date give the
size, every rank and every selection that the set itself gives, so no session can tell a ranked
set from a plain one, but by whether it has its sums.
-/

namespace ChunkedSet

variable {s : IntSet} {totals : Array Nat} {r : RankedSet} {i n : Nat}

def IntSet.sizeBefore (s : IntSet) (i : Nat) : Nat := ((s.entries.toList.take i).map Entry.size).sum

theorem IntSet.sizeBefore_of_size_le (h : s.entries.size ≤ i) : s.sizeBefore i = s.size := by
  rw [sizeBefore, List.take_of_length_le h, size, ← Array.foldl_toList, Words.foldl_add_eq_sum,
    Nat.zero_add]

theorem IntSet.foldl_extract_size (s : IntSet) (i : Nat) :
    (s.entries.extract 0 i).foldl (fun n e => n + e.size) 0 = s.sizeBefore i := by
  rw [← Array.foldl_toList, Words.foldl_add_eq_sum, Nat.zero_add, Array.toList_extract,
    List.extract_eq_take_drop, List.drop_zero, Nat.sub_zero, sizeBefore]

theorem IntSet.sizeBefore_mono (s : IntSet) {i j : Nat} (hij : i ≤ j) :
    s.sizeBefore i ≤ s.sizeBefore j := by
  obtain ⟨rest, hrest⟩ := List.take_prefix_take_left (l := s.entries.toList) hij
  rw [sizeBefore, sizeBefore, ← hrest, List.map_append, List.sum_append]
  exact Nat.le_add_right _ _

/-- The chunk of rank `n` is the one before which there are at most `n` values, and more with it. -/
theorem IntSet.selectIn_eq {xs : List Entry} (hi : i ≤ xs.length)
    (hle : ∀ j < i, ((xs.take (j + 1)).map Entry.size).sum ≤ n)
    (hlt : i < xs.length → n < ((xs.take (i + 1)).map Entry.size).sum) :
    selectIn xs n = xs[i]?.bind fun e =>
      (e.chunk.select ((n - ((xs.take i).map Entry.size).sum) % chunkSize)).map e.value := by
  induction xs generalizing i n with
  | nil => rfl
  | cons e rest ih =>
    rw [selectIn]
    cases i with
    | zero =>
      have hsize : ¬e.size ≤ n := by simpa using hlt
      rw [if_neg hsize]
      rfl
    | succ i =>
      have hsize : e.size ≤ n := by simpa using hle 0 (Nat.succ_pos i)
      have hrest := ih (i := i) (n := n - e.size) (Nat.le_of_succ_le_succ hi) (fun j hj => ?_)
        fun hlen => ?_
      · rw [if_pos hsize, hrest]
        simp [Nat.sub_sub]
      · have hstep := hle (j + 1) (Nat.succ_lt_succ hj)
        simp only [List.take_succ_cons, List.map_cons, List.sum_cons] at hstep
        omega
      · have hstep := hlt (Nat.succ_lt_succ hlen)
        simp only [List.take_succ_cons, List.map_cons, List.sum_cons] at hstep
        omega

structure PrefixSums (totals : Array Nat) (s : IntSet) : Prop where
  size : totals.size = s.entries.size
  get : ∀ i, i < s.entries.size → totals[i]? = some (s.sizeBefore (i + 1))

namespace RankedSet

theorem prefixSums_sums (s : IntSet) : PrefixSums (sums s) s := by
  have hfold : ∀ (xs : List Entry) (total : Nat) (out : Array Nat),
      (xs.foldl (fun acc e => (acc.1 + e.size, acc.2.push (acc.1 + e.size))) (total, out)).2.toList =
      out.toList ++ (List.range xs.length).map fun i =>
        total + ((xs.take (i + 1)).map Entry.size).sum := by
    intro xs
    induction xs with
    | nil => simp
    | cons e rest ih =>
      intro total out
      rw [List.foldl_cons, ih, List.length_cons, List.range_succ_eq_map]
      simp [Function.comp_def, Nat.add_assoc]
  have hsums : sums s = (s.entries.toList.foldl
      (fun acc e => (acc.1 + e.size, acc.2.push (acc.1 + e.size))) (0, #[])).2 := by
    rw [Array.foldl_toList]
    rfl
  have hlist : (sums s).toList =
      (List.range s.entries.size).map fun i => s.sizeBefore (i + 1) := by
    rw [hsums, hfold]
    simp [IntSet.sizeBefore]
  constructor
  · rw [← Array.length_toList, hlist, List.length_map, List.length_range]
  · intro i hi
    rw [← Array.getElem?_toList, hlist, List.getElem?_map, List.getElem?_range hi, Option.map_some]

def Fresh (r : RankedSet) : Prop := ∀ c, r.cumulative = some c → PrefixSums c r.set

theorem fresh_ofSet (s : IntSet) : (ofSet s).Fresh := fun _ h => nomatch h

theorem Fresh.cachedSums (h : r.Fresh) : PrefixSums r.cachedSums r.set := by
  rw [RankedSet.cachedSums]
  cases hcache : r.cumulative with
  | none => exact prefixSums_sums r.set
  | some c => exact h c hcache

theorem Fresh.fill (h : r.Fresh) : r.fill.Fresh := by
  rintro c ⟨⟩
  exact h.cachedSums

theorem before_eq (h : PrefixSums totals s) (hi : i ≤ s.entries.size) :
    before totals i = s.sizeBefore i := by
  cases i with
  | zero => rfl
  | succ i => rw [before, Array.getD_eq_getD_getElem?, h.get i hi, Option.getD_some]

theorem size_eq (h : r.Fresh) : r.size.1 = r.set.size := by
  have hsums := h.cachedSums
  rw [RankedSet.size, Array.back?, hsums.size]
  cases hsize : r.set.entries.size with
  | zero =>
    have hnone : r.cachedSums[0 - 1]? = none := Array.getElem?_eq_none (by rw [hsums.size]; omega)
    rw [hnone, ← IntSet.sizeBefore_of_size_le hsize.le]
    rfl
  | succ k =>
    rw [Nat.add_sub_cancel, hsums.get k (by omega), Option.getD_some,
      IntSet.sizeBefore_of_size_le hsize.le]

theorem rank_eq (h : r.Fresh) (v : Nat) : (r.rank v).1 = r.set.rank v := by
  have hplace : r.set.below (keyOf v) ≤ r.set.entries.size := partitionPoint_le_size _ _
  rw [RankedSet.rank, IntSet.rank]
  dsimp only
  rw [before_eq h.cachedSums hplace, IntSet.foldl_extract_size]
  cases r.set.entries[r.set.below (keyOf v)]? with
  | none => rfl
  | some e =>
    dsimp only
    split_ifs <;> rfl

theorem select_eq (h : r.Fresh) (n : Nat) : (r.select n).1 = r.set.select n := by
  have hsums := h.cachedSums
  have hleading : Leading (· ≤ n) r.cachedSums 0 r.cachedSums.size := by
    intro i j x y _ hij hj hx hy hle
    rw [hsums.size] at hj
    rw [hsums.get i (by omega)] at hx
    rw [hsums.get j hj] at hy
    cases hx
    cases hy
    have hmono := r.set.sizeBefore_mono (Nat.add_le_add_right hij 1)
    simp only [decide_eq_true_eq] at hle ⊢
    omega
  have hsplit : ∀ i, i < r.set.entries.size →
      (r.set.sizeBefore (i + 1) ≤ n ↔ i < partitionPoint (· ≤ n) r.cachedSums) := by
    intro i hi
    have hside := partitionPoint_splits hleading (hsums.get i hi)
    simpa using hside
  have hplace : partitionPoint (· ≤ n) r.cachedSums ≤ r.set.entries.size :=
    hsums.size ▸ partitionPoint_le_size _ _
  rw [RankedSet.select, IntSet.select]
  dsimp only
  rw [before_eq hsums hplace, IntSet.selectIn_eq hplace]
  · rw [Array.getElem?_toList]
    rfl
  · exact fun j hj => (hsplit j (by omega)).2 hj
  · exact fun hlt => Nat.not_le.1 fun hle => Nat.lt_irrefl _ ((hsplit _ hlt).1 hle)

end RankedSet

/-! Sessions. -/

variable {α : Type}

def RankedChange.Allowed : RankedChange α → Prop
  | insert v | erase v | push v => v < domainSize
  | insertRange range | eraseRange range | flip range => range.InDomain
  | insertAll values => ∀ v ∈ values, v < domainSize
  | clear => True
  | update f => ∀ s : IntSet, s.Valid → (f s).1.Valid

theorem RankedChange.onSet_valid {c : RankedChange α} (hc : c.Allowed) (hs : s.Valid) :
    (c.onSet s).1.Valid := by
  have hP := Chunk.grade_valid
  cases c with
  | insert v => exact (IntSet.insert_denotes hP hs.denotes hc).1.valid
  | erase v => exact (IntSet.erase_denotes hP hs.denotes hc).1.valid
  | push v => exact (IntSet.push_denotes hP hs.denotes hc).choose_spec.valid
  | insertRange range => exact (IntSet.insertRange_denotes hP hs.denotes hc).choose_spec.valid
  | eraseRange range => exact (IntSet.eraseRange_denotes hP hs.denotes hc).choose_spec.valid
  | flip range => exact (IntSet.flip_denotes hP hs.denotes hc).choose_spec.valid
  | insertAll values => exact (IntSet.insertAll_denotes hP hs.denotes hc).valid
  | clear => exact (IntSet.empty_denotes (P := Chunk.Valid)).valid
  | update f => exact hc s hs

def RankedStep.Allowed : RankedStep α → Prop
  | change c => c.Allowed
  | ask _ => True

def RankedCommand.Allowed : RankedCommand α → Prop
  | step _ st => st.Allowed
  | equals _ _ | clone _ => True

namespace RankedSet

structure Valid (r : RankedSet) : Prop where
  set : r.set.Valid
  fresh : r.Fresh

/-- What a session sees of a ranked set. -/
def plain (r : RankedSet) : IntSet × Bool := (r.set, r.isCached)

theorem valid_ofSet (hs : s.Valid) : (ofSet s).Valid := ⟨hs, fresh_ofSet s⟩

theorem Valid.fill (h : r.Valid) : r.fill.Valid := ⟨h.set, h.fresh.fill⟩

theorem ask_plain (h : r.Valid) (q : RankedQuery) :
    let answered : RankedAnswer α × RankedSet := q.onRanked r
    answered.1 = q.onSet r.set ∧ answered.2.plain = (r.set, r.isCached || q.needsSums) ∧
      answered.2.Valid := by
  intro answered
  have hfilled : r.fill.plain = (r.set, r.isCached || true) :=
    congrArg (Prod.mk r.set) (Bool.or_true _).symm
  have hkept : r.plain = (r.set, r.isCached || false) :=
    congrArg (Prod.mk r.set) (Bool.or_false _).symm
  cases q with
  | size => exact ⟨congrArg _ (size_eq h.fresh), hfilled, h.fill⟩
  | rank v => exact ⟨congrArg _ (rank_eq h.fresh v), hfilled, h.fill⟩
  | select n => exact ⟨congrArg _ (select_eq h.fresh n), hfilled, h.fill⟩
  | contains v => exact ⟨rfl, hkept, h⟩
  | isEmpty => exact ⟨rfl, hkept, h⟩

theorem step_plain (h : r.Valid) {st : RankedStep α} (hst : st.Allowed) :
    (st.onRanked r).1 = (st.onPlain r.plain).1 ∧
      (st.onRanked r).2.plain = (st.onPlain r.plain).2 ∧ (st.onRanked r).2.Valid := by
  cases st with
  | change c => exact ⟨rfl, rfl, valid_ofSet (RankedChange.onSet_valid hst h.set)⟩
  | ask q => exact ask_plain h q

variable {pool : List RankedSet}

theorem apply_plain (hpool : ∀ r ∈ pool, r.Valid) {command : RankedCommand α}
    (hcommand : command.Allowed) :
    (command.apply RankedStep.onRanked equals pool).1 =
        (command.apply RankedStep.onPlain (·.1.equals ·.1) (pool.map plain)).1 ∧
      (command.apply RankedStep.onRanked equals pool).2.map plain =
        (command.apply RankedStep.onPlain (·.1.equals ·.1) (pool.map plain)).2 ∧
      ∀ r ∈ (command.apply RankedStep.onRanked equals pool).2, r.Valid := by
  cases command with
  | step i st =>
    rw [RankedCommand.apply, RankedCommand.apply, List.getElem?_map]
    cases hget : pool[i]? with
    | none => exact ⟨rfl, rfl, hpool⟩
    | some r =>
      obtain ⟨hanswer, hplain, hvalid⟩ :=
        step_plain (hpool r (List.mem_of_getElem? hget)) hcommand
      refine ⟨congrArg some hanswer, ?_, fun q hq => ?_⟩
      · dsimp only [Option.map_some]
        rw [List.map_set, hplain]
      · rcases List.mem_or_eq_of_mem_set hq with hmem | rfl
        · exact hpool q hmem
        · exact hvalid
  | equals i j =>
    rw [RankedCommand.apply, RankedCommand.apply, List.getElem?_map, List.getElem?_map]
    cases pool[i]? with
    | none => exact ⟨rfl, rfl, hpool⟩
    | some r =>
      cases pool[j]? with
      | none => exact ⟨rfl, rfl, hpool⟩
      | some q => exact ⟨rfl, rfl, hpool⟩
  | clone i =>
    refine ⟨rfl, ?_, fun r hr => ?_⟩
    · rw [RankedCommand.apply, RankedCommand.apply, List.getElem?_map, List.map_append,
        Option.toList_map]
    · rcases List.mem_append.1 hr with hmem | hcopy
      · exact hpool r hmem
      · exact hpool r (List.mem_of_getElem? (Option.mem_toList.1 hcopy))

theorem run_plain (hpool : ∀ r ∈ pool, r.Valid) {commands : List (RankedCommand α)}
    (hcommands : ∀ command ∈ commands, command.Allowed) :
    (RankedCommand.run RankedStep.onRanked equals commands pool).1 =
        (RankedCommand.run RankedStep.onPlain (·.1.equals ·.1) commands (pool.map plain)).1 ∧
      (RankedCommand.run RankedStep.onRanked equals commands pool).2.map plain =
        (RankedCommand.run RankedStep.onPlain (·.1.equals ·.1) commands (pool.map plain)).2 ∧
      ∀ r ∈ (RankedCommand.run RankedStep.onRanked equals commands pool).2, r.Valid := by
  induction commands generalizing pool with
  | nil => exact ⟨rfl, rfl, hpool⟩
  | cons command commands ih =>
    obtain ⟨hanswer, hplain, hvalid⟩ := apply_plain hpool (hcommands command List.mem_cons_self)
    obtain ⟨hanswers, hleft, hall⟩ :=
      ih hvalid fun c hc => hcommands c (List.mem_cons_of_mem command hc)
    rw [hplain] at hanswers hleft
    rw [RankedCommand.run_cons, RankedCommand.run_cons, hanswer, hanswers]
    exact ⟨rfl, hleft, hall⟩

/-- A session cannot tell ranked sets from plain ones. Every set it leaves knows whether its sums
were asked for since its last change, has the right ones if so, and answers as a plain set does. -/
theorem session_correct {starts : List IntSet} {commands : List (RankedCommand α)}
    (hstarts : ∀ s ∈ starts, s.Valid) (hcommands : ∀ command ∈ commands, command.Allowed) :
    let ranked := RankedCommand.run RankedStep.onRanked equals commands (starts.map ofSet)
    let plainly := RankedCommand.run RankedStep.onPlain (·.1.equals ·.1) commands
      (starts.map fun s => (s, false))
    ranked.1 = plainly.1 ∧ ranked.2.map (fun r => (r.set, r.isCached)) = plainly.2 ∧
      ∀ r ∈ ranked.2, r.set.Valid ∧ (∀ c, r.cumulative = some c → PrefixSums c r.set) ∧
        r.size.1 = r.set.size ∧ (∀ v, (r.rank v).1 = r.set.rank v) ∧
        (∀ n, (r.select n).1 = r.set.select n) ∧
        (∀ c : RankedChange α, (r.update c.onSet).1.isCached = false) ∧
        r.size.2.isCached = true ∧ (∀ v, (r.rank v).2.isCached = true) ∧
        ∀ n, (r.select n).2.isCached = true := by
  have hpool : ∀ r ∈ starts.map ofSet, r.Valid := by
    intro r hr
    obtain ⟨s, hs, rfl⟩ := List.mem_map.1 hr
    exact valid_ofSet (hstarts s hs)
  obtain ⟨hanswers, hplain, hvalid⟩ := run_plain hpool hcommands
  rw [List.map_map] at hanswers hplain
  refine ⟨hanswers, hplain, fun r hr => ?_⟩
  have hfresh := (hvalid r hr).fresh
  exact ⟨(hvalid r hr).set, hfresh, size_eq hfresh, rank_eq hfresh, select_eq hfresh,
    fun _ => rfl, rfl, fun _ => rfl, fun _ => rfl⟩

/-- The copy keeps the sums that a failing change takes from the original. -/
theorem session_correct_copied :
    let s : IntSet := ⟨#[⟨0, .array ⟨#[1, 2, 5]⟩⟩, ⟨7, .runs ⟨#[⟨0, 9⟩]⟩⟩]⟩
    let commands : List (RankedCommand Unit) :=
      [.step 0 (.ask (.rank 4)), .clone 0,
        .step 0 (.change (.insertRange ⟨.included 9, .excluded 3⟩)),
        .step 0 (.change (.update fun s => (s.dropSmallest 2, ()))),
        .step 1 (.ask (.select 4)), .step 0 (.ask (.contains 2))]
    let ranked := RankedCommand.run RankedStep.onRanked equals commands [ofSet s]
    s.Valid ∧ (∀ command ∈ commands, command.Allowed) ∧
      ranked.1 = [some (.number 2), none, some (.changed (.error (.startGreaterThanEnd 9 3))),
        some (.report ()), some (.value (some 458753)), some (.flag false)] ∧
      ranked.2.map isCached = [false, true] ∧ ∀ r ∈ ranked.2, (r.rank 5).1 = r.set.rank 5 := by
  intro s commands ranked
  have hs : s.Valid := by decide
  have hstarts : ∀ t ∈ [s], t.Valid := by simpa using hs
  have hcommands : ∀ command ∈ commands, command.Allowed := by
    simp only [commands, List.forall_mem_cons, RankedCommand.Allowed, RankedStep.Allowed,
      RankedChange.Allowed, true_and]
    refine ⟨?_, fun s hs => ?_, ?_⟩
    · simp [Bounds.InDomain, Bound.InDomain, Bound.value?, domainSize]
    · exact (IntSet.dropSmallest_denotes Chunk.grade_valid hs.denotes 2).choose_spec.valid
    · exact List.forall_mem_nil _
  obtain ⟨hanswers, hplain, hall⟩ := session_correct hstarts hcommands
  refine ⟨hs, hcommands, hanswers.trans ?_, ?_, fun r hr => (hall r hr).2.2.2.1 5⟩
  · subst commands s
    rfl
  · have hflags := congrArg (List.map Prod.snd) hplain
    rw [List.map_map] at hflags
    exact hflags.trans rfl

end RankedSet

end ChunkedSet
