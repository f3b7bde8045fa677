import ChunkedSet.Proofs.CheckedRunCursor

/-!
# Steps of cursors over runs

A cursor over runs answers what a queue of the positions left answers, and a stretch that it hands
out is the longest one at the front that lies in one run and keeps to the limit. Along any sequence
of steps no index leaves the list of runs and no difference goes below zero.
-/

namespace ChunkedSet

variable {l : RunList} {xs : List Nat} {limit : Nat}

/-! Stretches. -/

def Run.positions (r : Run) : List Nat := List.range' r.first r.size

namespace RunList

/-- Values at the front of `xs` that follow one another within one run, at most `limit` of them. -/
structure Leads (l : RunList) (limit : Nat) (xs ys : List Nat) : Prop where
  front : ys <+: xs
  length_le : ys.length ≤ limit
  consecutive : ys.IsChain fun p q => q = p + 1
  within : ∃ r ∈ l.toList, ∀ p ∈ ys, p ∈ r

/-- The longest such stretch, which all others are parts of. -/
structure LeadsLongest (l : RunList) (limit : Nat) (xs ys : List Nat) : Prop
    extends l.Leads limit xs ys where
  longest : ∀ zs, l.Leads limit xs zs → zs <+: ys

theorem Valid.lists_toSorted (h : l.Valid) : Lists l.toSorted.toList (· ∈ l) := by
  have hden := toSorted_denotes h.denotes
  exact ⟨hden.1.1, fun p => hden.mem_toList.trans (h.denotes.2 p).symm⟩

theorem Valid.eq_of_mem {r s : Run} {p : Nat} (h : l.Valid) (hr : r ∈ l.toList) (hs : s ∈ l.toList)
    (hpr : p ∈ r) (hps : p ∈ s) : r = s := by
  rw [toList, Array.mem_toList_iff, Array.mem_iff_getElem?] at hr hs
  obtain ⟨i, hi⟩ := hr
  obtain ⟨j, hj⟩ := hs
  obtain rfl := Nat.le_antisymm (h.index_le hi hj hps hpr.1) (h.index_le hj hi hpr hps.1)
  exact Option.some.inj (hi.symm.trans hj)

end RunList

namespace RunCursor

variable {c : RunCursor}

theorem Walks.front_mem (h : c.Walks l xs) (hlt : c.value < c.stop) :
    ∃ r ∈ l.toList, c.value ∈ r ∧ c.frontLast = r.last := by
  obtain ⟨r, hr, hmem⟩ := h.holds.front_run hlt
  refine ⟨r, ?_, hmem, by rw [frontLast, hr, Option.elim_some]⟩
  rw [h.runs_eq] at hr
  exact Array.mem_toList_iff.2 (Array.mem_of_getElem? hr)

theorem Walks.leads (h : c.Walks l xs) (hlt : c.value < c.stop) (limit : Nat) :
    l.Leads limit xs (List.range' c.value (c.stretch limit)) := by
  obtain ⟨r, hin, hmem, hlast⟩ := h.front_mem hlt
  refine ⟨⟨_, (h.holds.split_stretch hlt limit).symm⟩, ?_, List.isChain_range' _ _ 1, r, hin, ?_⟩
  · rw [List.length_range']
    exact Nat.min_le_right _ _
  · intro p hp
    rw [List.mem_range'_1, stretch, hlast] at hp
    rw [Run.mem_def] at hmem ⊢
    omega

/-- A longer stretch would hold a value behind this one in the run at the front. So nothing but the
limit ended this one, and the longer one exceeds it. -/
theorem Walks.longest (h : c.Walks l xs) (hlt : c.value < c.stop) {zs : List Nat}
    (hzs : l.Leads limit xs zs) : zs <+: List.range' c.value (c.stretch limit) := by
  refine List.prefix_of_prefix_length_le hzs.front (h.leads hlt limit).front ?_
  rw [List.length_range']
  by_contra hlong
  have hhead : c.value ∈ zs := by
    have hxs := h.holds.head?_eq hlt
    obtain ⟨rest, rfl⟩ := hzs.front
    cases zs with
    | nil => exact absurd (Nat.zero_le _) hlong
    | cons z zs =>
      obtain rfl := Option.some.inj hxs
      exact List.mem_cons_self
  -- the first value of `zs` behind the stretch
  obtain ⟨q, hq⟩ : ∃ q, q ∈ zs.drop (c.stretch limit) := by
    refine List.exists_mem_of_length_pos ?_
    rw [List.length_drop]
    omega
  have hbehind : c.value + c.stretch limit ≤ q ∧ q < c.stop := by
    have hmem := (hzs.front.drop (c.stretch limit)).mem hq
    rw [h.holds.drop_stretch_eq hlt, List.mem_filter, decide_eq_true_eq, h.holds.lists.2 q] at hmem
    exact ⟨hmem.2, hmem.1.2.1⟩
  obtain ⟨t, ht, hall⟩ := hzs.within
  obtain ⟨r, hr, hmem, hlast⟩ := h.front_mem hlt
  obtain rfl := h.valid.eq_of_mem hr ht hmem (hall c.value hhead)
  have hend := (hall q (List.mem_of_mem_drop hq)).2
  have hlimit := hzs.length_le
  rw [stretch] at hlong hbehind
  omega

theorem Walks.nextChunk (h : c.Walks l xs) (hlt : c.value < c.stop) (hroom : 0 < limit)
    (hadmits : c.Admits limit) :
    ∃ r, (c.nextChunk limit).1 = some r ∧ l.LeadsLongest limit xs r.positions ∧
      ∃ left, xs = r.positions ++ left ∧ (c.nextChunk limit).2.Walks l left := by
  have hpos := h.holds.stretch_pos hlt hroom
  have hpositions : Run.positions ⟨c.value, c.value + c.stretch limit - 1⟩ =
      List.range' c.value (c.stretch limit) := by
    have hsize : c.value + c.stretch limit - 1 - c.value + 1 = c.stretch limit := by omega
    rw [Run.positions, Run.size]
    simp only [hsize]
  rw [h.holds.nextChunk_eq hlt hroom hadmits]
  refine ⟨_, rfl, ?_, xs.drop (c.stretch limit), ?_, h.skipTo hlt (h.holds.drop_stretch hlt hroom)⟩
  · rw [hpositions]
    exact ⟨h.leads hlt limit, fun zs => h.longest hlt⟩
  · rw [hpositions, ← h.holds.take_stretch hlt limit, List.take_append_drop]

end RunCursor

/-! Sequences of steps. -/

inductive RunStep
  | peek
  | peekBack
  | next
  | nextBack
  | advanceTo (p : Nat)
  | advanceBackTo (p : Nat)
  | nextChunk (limit : Nat)
  | size

inductive RunAnswer
  | value (p : Option Nat)
  | stretch (r : Option Run)
  | count (n : Nat)
  | moved
deriving DecidableEq

namespace RunStep

open RunCursor

def Legal : RunStep → Prop
  | advanceTo p => p < chunkSize
  | advanceBackTo p => p < chunkSize
  | nextChunk limit => limit < chunkSize
  | _ => True

def apply : RunStep → RunCursor → RunAnswer × RunCursor
  | peek, c => (.value c.peek?, c)
  | peekBack, c => (.value c.peekBack?, c)
  | next, c => c.next.map .value id
  | nextBack, c => c.nextBack.map .value id
  | advanceTo p, c => (.moved, c.advanceTo p)
  | advanceBackTo p, c => (.moved, c.advanceBackTo p)
  | nextChunk limit, c => (c.nextChunk limit).map .stretch id
  | size, c => (.count c.size, c)

def checked : RunStep → RunCursor → Option (RunAnswer × RunCursor)
  | peek, c => some (.value c.peek?, c)
  | peekBack, c => (.value ·, c) <$> Checked.peekBack c
  | next, c => Prod.map .value id <$> Checked.next c
  | nextBack, c => Prod.map .value id <$> Checked.nextBack c
  | advanceTo p, c => (.moved, ·) <$> Checked.advanceTo c p
  | advanceBackTo p, c => (.moved, ·) <$> Checked.advanceBackTo c p
  | nextChunk limit, c => Prod.map .stretch id <$> Checked.nextChunk c limit
  | size, c => (.count ·, c) <$> Checked.size c

def Answers (l : RunList) : RunStep → List Nat → RunAnswer → List Nat → Prop
  | peek, xs, a, left => a = .value xs.head? ∧ left = xs
  | peekBack, xs, a, left => a = .value xs.getLast? ∧ left = xs
  | next, xs, a, left => a = .value xs.head? ∧ left = xs.tail
  | nextBack, xs, a, left => a = .value xs.getLast? ∧ left = xs.dropLast
  | advanceTo p, xs, a, left => a = .moved ∧ left = xs.dropWhile (· < p)
  | advanceBackTo p, xs, a, left => a = .moved ∧ left = (xs.reverse.dropWhile (p < ·)).reverse
  | nextChunk limit, xs, a, left =>
    if xs = [] ∨ limit = 0 then a = .stretch none ∧ left = xs
    else ∃ r, a = .stretch (some r) ∧ l.LeadsLongest limit xs r.positions ∧ xs = r.positions ++ left
  | size, xs, a, left => a = .count xs.length ∧ left = xs

def onNothing : RunStep → RunAnswer
  | peek => .value none
  | peekBack => .value none
  | next => .value none
  | nextBack => .value none
  | advanceTo _ => .moved
  | advanceBackTo _ => .moved
  | nextChunk _ => .stretch none
  | size => .count 0

variable {step : RunStep} {steps : List RunStep} {c : RunCursor} {a : RunAnswer}
  {answers : List RunAnswer}

theorem checked_eq (hlegal : step.Legal) (h : c.Walks l xs) :
    step.checked c = some (step.apply c) := by
  cases step with
  | peek => rfl
  | peekBack =>
    rw [checked, checked_peekBack]
    rfl
  | next =>
    rw [checked, h.holds.checked_next]
    rfl
  | nextBack =>
    rw [checked, h.holds.checked_nextBack]
    rfl
  | advanceTo p =>
    rw [checked, h.checked_advanceTo]
    rfl
  | advanceBackTo p =>
    rw [checked, h.checked_advanceBackTo]
    rfl
  | nextChunk limit =>
    rw [checked, h.holds.checked_nextChunk (h.holds.admits hlegal)]
    rfl
  | size =>
    rw [checked, h.holds.checked_size]
    rfl

theorem apply_answers (hlegal : step.Legal) (h : c.Walks l xs) :
    ∃ left, (step.apply c).2.Walks l left ∧ step.Answers l xs (step.apply c).1 left := by
  cases step with
  | peek => exact ⟨xs, h, congrArg RunAnswer.value h.holds.peek?, rfl⟩
  | peekBack => exact ⟨xs, h, congrArg RunAnswer.value h.holds.peekBack?, rfl⟩
  | next => exact ⟨xs.tail, h.next, congrArg RunAnswer.value h.holds.next.1, rfl⟩
  | nextBack => exact ⟨xs.dropLast, h.nextBack, congrArg RunAnswer.value h.holds.nextBack.1, rfl⟩
  | advanceTo p => exact ⟨_, h.advanceTo hlegal, rfl, rfl⟩
  | advanceBackTo p => exact ⟨_, h.advanceBackTo p, rfl, rfl⟩
  | nextChunk limit =>
    by_cases hnone : c.stop ≤ c.value ∨ limit = 0
    · rw [apply, nextChunk_eq_none hnone]
      refine ⟨xs, h, ?_⟩
      rw [Answers, if_pos (hnone.imp_left h.holds.eq_nil_iff.2)]
      exact ⟨rfl, rfl⟩
    · obtain ⟨hlt, hroom⟩ : c.value < c.stop ∧ 0 < limit := by omega
      obtain ⟨r, hr, hlongest, left, hxs, hleft⟩ := h.nextChunk hlt hroom (h.holds.admits hlegal)
      refine ⟨left, hleft, ?_⟩
      rw [Answers, if_neg fun hnil => hnone (hnil.imp_left h.holds.eq_nil_iff.1)]
      exact ⟨r, congrArg RunAnswer.stretch hr, hlongest, hxs⟩
  | size => exact ⟨xs, h, congrArg RunAnswer.count h.holds.size, rfl⟩

def run : List RunStep → RunCursor → List RunAnswer × RunCursor
  | [], c => ([], c)
  | step :: steps, c =>
    let (a, c) := step.apply c
    let (answers, c) := run steps c
    (a :: answers, c)

def runChecked : List RunStep → RunCursor → Option (List RunAnswer × RunCursor)
  | [], c => some ([], c)
  | step :: steps, c => do
    let (a, c) ← step.checked c
    let (answers, c) ← runChecked steps c
    return (a :: answers, c)

inductive Trace (l : RunList) : List RunStep → List Nat → List RunAnswer → List Nat → Prop
  | nil (xs : List Nat) : Trace l [] xs [] xs
  | cons {step : RunStep} {steps : List RunStep} {a : RunAnswer} {answers : List RunAnswer}
      {xs ys zs : List Nat} (hstep : step.Answers l xs a ys)
      (hsteps : Trace l steps ys answers zs) : Trace l (step :: steps) xs (a :: answers) zs

-- the cursor walks over the list after each step, so no check of the next step fails
theorem run_spec (hlegal : ∀ step ∈ steps, step.Legal) (h : c.Walks l xs) :
    runChecked steps c = some (run steps c) ∧
      ∃ left, (run steps c).2.Walks l left ∧ Trace l steps xs (run steps c).1 left := by
  induction steps generalizing c xs with
  | nil => exact ⟨rfl, xs, h, .nil xs⟩
  | cons step steps ih =>
    obtain ⟨hfirst, hrest⟩ := List.forall_mem_cons.1 hlegal
    obtain ⟨ys, hys, hanswer⟩ := apply_answers hfirst h
    obtain ⟨hchecked, left, hleft, htrace⟩ := ih hrest hys
    refine ⟨?_, left, hleft, .cons hanswer htrace⟩
    simp only [runChecked, checked_eq hfirst h, Option.bind_eq_bind, Option.bind_some, hchecked]
    rfl

theorem Answers.of_nil (h : step.Answers l [] a xs) : a = step.onNothing ∧ xs = [] := by
  cases step with
  | nextChunk limit =>
    rw [Answers, if_pos (Or.inl rfl)] at h
    exact h
  | _ => exact h

theorem Trace.of_nil (h : Trace l steps [] answers xs) :
    answers = steps.map onNothing ∧ xs = [] := by
  induction steps generalizing answers with
  | nil =>
    cases h
    exact ⟨rfl, rfl⟩
  | cons step steps ih =>
    cases h with
    | cons hstep hsteps =>
      obtain ⟨rfl, rfl⟩ := hstep.of_nil
      obtain ⟨rfl, rfl⟩ := ih hsteps
      exact ⟨rfl, rfl⟩

end RunStep

namespace RunCursor

open RunStep

/-- Whatever the steps, no index leaves the list of runs and no difference goes below zero. The
answers are those of a queue of the positions, where a chunk is the longest stretch at the front
that lies in one run. Once nothing is left, nothing comes back. -/
theorem steps_stay_in_bounds {steps : List RunStep} (hl : l.Valid)
    (hlegal : ∀ step ∈ steps, step.Legal) :
    let result := run steps (ofList l)
    runChecked steps (ofList l) = some result ∧
    (∃ xs left, Lists xs (· ∈ l) ∧ Trace l steps xs result.1 left ∧
      (result.2.isExhausted = true ↔ left = [])) ∧
    (result.2.isExhausted = true → ∀ more, (∀ step ∈ more, step.Legal) →
      (run more result.2).1 = more.map onNothing ∧
      (run more result.2).2.isExhausted = true) := by
  intro result
  obtain ⟨hchecked, left, hleft, htrace⟩ := run_spec hlegal (Walks.ofList hl)
  have hexhausted : ∀ {c : RunCursor} {ys : List Nat}, c.Walks l ys →
      (c.isExhausted = true ↔ ys = []) := fun {c ys} h => by
    rw [isExhausted_iff, h.holds.eq_nil_iff]
  refine ⟨hchecked, ⟨_, left, hl.lists_toSorted, htrace, hexhausted hleft⟩,
    fun hnone more hmore => ?_⟩
  rw [hexhausted hleft] at hnone
  subst hnone
  obtain ⟨-, rest, hrest, hnothing⟩ := run_spec hmore hleft
  obtain ⟨hanswers, rfl⟩ := hnothing.of_nil
  exact ⟨hanswers, (hexhausted hrest).2 rfl⟩

theorem steps_stay_in_bounds_both_ends :
    let l : RunList := ⟨#[⟨5, 5⟩, ⟨10, 12⟩, ⟨20, 22⟩]⟩
    let steps : List RunStep := [.nextChunk 2, .nextBack, .advanceTo 11, .size, .nextChunk 65535,
      .advanceBackTo 15]
    let more : List RunStep := [.nextBack, .advanceTo 65535, .nextChunk 9, .advanceBackTo 0, .size]
    l.Valid ∧ RunList.empty.Valid ∧ (∀ step ∈ steps, step.Legal) ∧ (∀ step ∈ more, step.Legal) ∧
      (runChecked steps (ofList l)).map Prod.fst = some [.stretch (some ⟨5, 5⟩), .value (some 22),
        .moved, .count 4, .stretch (some ⟨11, 12⟩), .moved] ∧
      (run steps (ofList l)).2.isExhausted = true ∧
      (run more (run steps (ofList l)).2).1 =
        [.value none, .moved, .stretch none, .moved, .count 0] ∧
      (runChecked more (ofList .empty)).map Prod.fst =
        some [.value none, .moved, .stretch none, .moved, .count 0] := by
  intro l steps more
  have hl : l.Valid := by decide
  have hempty : RunList.empty.Valid := by decide
  have hsteps : ∀ step ∈ steps, step.Legal := by
    simp [steps, Legal, chunkSize]
  have hmore : ∀ step ∈ more, step.Legal := by
    simp [more, Legal, chunkSize]
  obtain ⟨hchecked, -, hnothing⟩ := steps_stay_in_bounds hl hsteps
  obtain ⟨hunfilled, -⟩ := steps_stay_in_bounds hempty hmore
  have hexhausted : (run steps (ofList l)).2.isExhausted = true := by decide
  refine ⟨hl, hempty, hsteps, hmore, ?_, hexhausted, (hnothing hexhausted more hmore).1, ?_⟩
  · rw [hchecked]
    decide
  · rw [hunfilled]
    decide

end RunCursor

end ChunkedSet
