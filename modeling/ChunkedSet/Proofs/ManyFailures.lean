import ChunkedSet.Proofs.ManySets

/-!
# Failures among many inputs

Unions and symmetric differences read every input and so end with the first failure. A difference
stops as soon as nothing is left, and so does an intersection once it has read its first sixteen
inputs: a failure behind that goes unnoticed.
-/

namespace ChunkedSet

variable {op : Operation} {s t : IntSet}

theorem IntSet.eq_empty_of_isEmpty (h : s.isEmpty = true) : s = .empty :=
  congrArg IntSet.mk (Array.isEmpty_iff.1 h)

theorem IntSet.Valid.isEmpty_iff (h : s.Valid) : s.isEmpty = true ↔ ∀ v, v ∉ s := by
  constructor
  · intro hempty v hv
    obtain ⟨e, he, -⟩ := (mem_def s v).1 hv
    rw [eq_empty_of_isEmpty hempty] at he
    exact List.not_mem_nil he
  · intro hnone
    rw [isEmpty, Array.isEmpty_iff, ← Array.toList_eq_nil_iff]
    refine List.eq_nil_iff_forall_not_mem.2 fun e he => ?_
    have hden := h.denotes
    obtain ⟨p, hp⟩ := (hden.element e he).2.2.2.2
    exact hnone _ (mem_of_position hden he hp)

namespace Many

variable {ε : Type} {o : Ownership} {inputs rest : List (Except ε IntSet)} {sets : List IntSet}
  {e : ε} {i : Nat}

def FirstFailure (inputs : List (Except ε IntSet)) (i : Nat) (e : ε) : Prop :=
  inputs[i]? = some (.error e) ∧ ∀ input ∈ inputs.take i, ∀ e', input ≠ .error e'

/-- The failure is reported if the condition holds, and otherwise the result is empty. -/
def FailsIff (result : Except ε IntSet) (e : ε) (condition : Prop) : Prop :=
  (condition → result = .error e) ∧ (¬condition → result = .ok .empty)

theorem eq_map_okSets (h : ∀ input ∈ inputs, ∀ e, input ≠ .error e) :
    inputs = (okSets inputs).map .ok := by
  induction inputs with
  | nil => rfl
  | cons input rest ih =>
    obtain ⟨hinput, hrest⟩ := List.forall_mem_cons.1 h
    cases input with
    | error e => exact absurd rfl (hinput e)
    | ok s => rw [okSets_ok_cons, List.map_cons, ← ih hrest]

theorem FirstFailure.split (h : FirstFailure inputs i e) :
    inputs = (okSets (inputs.take i)).map .ok ++ .error e :: inputs.drop (i + 1) := by
  obtain ⟨hi, hget⟩ := List.getElem?_eq_some_iff.1 h.1
  rw [← eq_map_okSets h.2, ← hget, ← List.drop_eq_getElem_cons hi, List.take_append_drop]

theorem FirstFailure.length_okSets (h : FirstFailure inputs i e) :
    (okSets (inputs.take i)).length = i := by
  obtain ⟨hi, -⟩ := List.getElem?_eq_some_iff.1 h.1
  have hlength := congrArg List.length (eq_map_okSets h.2)
  rw [List.length_map, List.length_take, Nat.min_eq_left hi.le] at hlength
  exact hlength.symm

/-! Inputs in front of which there is no failure. -/

theorem unionFrom_map_ok_append (sets : List IntSet) (rest : List (Except ε IntSet))
    (u : LazyUnion) :
    unionFrom (sets.map .ok ++ rest) u = unionFrom rest (u.addAll sets) := by
  induction sets generalizing u with
  | nil => rfl
  | cons s more ih => exact ih (u.add s)

theorem toggleAll_map_ok_append (sets : List IntSet) (rest : List (Except ε IntSet))
    (acc : Array Entry) :
    toggleAll (sets.map .ok ++ rest) acc =
      toggleAll rest (sets.foldl (fun acc s => s.entries.foldl toggleEntry acc) acc) := by
  induction sets generalizing acc with
  | nil => rfl
  | cons s more ih => exact ih (s.entries.foldl toggleEntry acc)

theorem collect_map_ok_append (sets : List IntSet) (rest : List (Except ε IntSet))
    (out : Array IntSet) :
    collect (sets.map .ok ++ rest) out = collect rest (sets.foldl Array.push out) := by
  induction sets generalizing out with
  | nil => rfl
  | cons s more ih => exact ih (out.push s)

theorem foldWhileNonempty_of_isEmpty (inputs : List (Except ε IntSet)) (h : s.isEmpty = true) :
    foldWhileNonempty op o inputs s = .ok s := by
  cases inputs with
  | nil => rfl
  | cons input rest =>
    rw [foldWhileNonempty.eq_def]
    exact if_pos h

theorem foldWhileNonempty_append (h : foldWhileNonempty op o inputs s = .ok t) :
    foldWhileNonempty op o (inputs ++ rest) s = foldWhileNonempty op o rest t := by
  induction inputs generalizing s with
  | nil =>
    rw [foldWhileNonempty] at h
    rw [← Except.ok.inj h, List.nil_append]
  | cons input inputs ih =>
    unfold foldWhileNonempty at h
    split at h
    · rename_i hempty
      rw [← Except.ok.inj h, foldWhileNonempty_of_isEmpty _ hempty,
        foldWhileNonempty_of_isEmpty _ hempty]
    · rename_i hsome
      cases input with
      | error e => cases h
      | ok r =>
        rw [List.cons_append, foldWhileNonempty, if_neg hsome]
        exact ih h

theorem foldWhileNonempty_failure (op : Operation) (o : Ownership) (s : IntSet) (e : ε)
    (rest : List (Except ε IntSet)) :
    foldWhileNonempty op o (.error e :: rest) s = if s.isEmpty then .ok .empty else .error e := by
  rw [foldWhileNonempty]
  split
  · rename_i hempty
    rw [IntSet.eq_empty_of_isEmpty hempty]
  · rfl

theorem difference_append (hinputs : inputs ≠ []) (h : difference o inputs = .ok t) :
    difference o (inputs ++ rest) = foldWhileNonempty .difference o rest t := by
  cases inputs with
  | nil => exact absurd rfl hinputs
  | cons input inputs =>
    cases input with
    | error e => cases h
    | ok first => exact foldWhileNonempty_append h

theorem collect_map_ok (sets : List IntSet) :
    collect (sets.map (Except.ok (ε := ε))) #[] = .ok sets := by
  have h := collect_map_ok_append (ε := ε) sets [] #[]
  rw [List.append_nil] at h
  rw [h, collect]
  simp

theorem intersection_append (hinputs : headSize ≤ inputs.length) (h : intersection o inputs = .ok t) :
    intersection o (inputs ++ rest) = foldWhileNonempty .intersection o rest t := by
  rcases intersection_cases h with ⟨rfl, rfl⟩ | ⟨head, first, others, htake, hsorted, hfold⟩
  · cases hinputs
  · rw [intersection, List.take_append_of_le_length hinputs, List.drop_append_of_le_length hinputs,
      htake, collect_map_ok]
    simp only [hsorted]
    rw [← List.append_assoc]
    exact foldWhileNonempty_append hfold

/-! Without a failure. -/

theorem exists_foldWhileNonempty (op : Operation) (o : Ownership) (sets : List IntSet) (s : IntSet) :
    ∃ t, foldWhileNonempty op o (sets.map (Except.ok (ε := ε))) s = .ok t := by
  induction sets generalizing s with
  | nil => exact ⟨s, rfl⟩
  | cons r rest ih =>
    rw [List.map_cons, foldWhileNonempty]
    split
    · exact ⟨s, rfl⟩
    · exact ih _

theorem exists_apply (op : Operation) (o : Ownership) (sets : List IntSet) :
    ∃ t, apply op o (sets.map (Except.ok (ε := ε))) = .ok t := by
  cases op with
  | union =>
    have h := unionFrom_map_ok_append (ε := ε) sets [] .empty
    rw [List.append_nil, unionFrom] at h
    exact ⟨_, by rw [apply, union, h]; rfl⟩
  | intersection =>
    rw [apply, intersection, ← List.map_take, ← List.map_drop, collect_map_ok]
    dsimp only
    split
    · exact ⟨_, rfl⟩
    · rw [← List.map_append]
      exact exists_foldWhileNonempty _ _ _ _
  | difference =>
    cases sets with
    | nil => exact ⟨_, rfl⟩
    | cons first rest => exact exists_foldWhileNonempty _ _ _ _
  | symmetricDifference =>
    have h := toggleAll_map_ok_append (ε := ε) sets [] #[]
    rw [List.append_nil, toggleAll] at h
    exact ⟨_, by rw [apply, symmetricDifference, h]; rfl⟩

theorem exists_yields (hsets : ∀ s ∈ sets, s.Valid) (op : Operation) (o : Ownership) :
    ∃ t, apply op o (sets.map (Except.ok (ε := ε))) = .ok t ∧ op.Yields sets t := by
  obtain ⟨t, ht⟩ := exists_apply (ε := ε) op o sets
  have hden := apply_denotes Chunk.grade_valid op o
    (inputsDenote_map_ok fun s hs => ⟨_, (hsets s hs).denotes⟩) ht
  rw [okSets_map_ok] at hden
  exact ⟨t, ht, Operation.yields_of_denotes hsets hden⟩

/-! With a failure. -/

theorem failsIff_of_yields {condition : Prop} (ht : op.Yields sets t)
    (hcondition : condition ↔ ∃ v, op.HoldsAmong v sets) {result : Except ε IntSet}
    (hresult : result = if t.isEmpty then .ok .empty else .error e) :
    FailsIff result e condition := by
  have hempty : t.isEmpty = true ↔ ¬condition := by
    rw [ht.1.isEmpty_iff, hcondition, not_exists]
    exact forall_congr' fun v => not_congr (ht.2 v)
  constructor
  · intro h
    rw [hresult, if_neg fun hnone => hempty.1 hnone h]
  · intro h
    rw [hresult, if_pos (hempty.2 h)]

theorem difference_failure (hsets : ∀ s ∈ sets, s.Valid) (e : ε) (rest : List (Except ε IntSet)) :
    FailsIff (difference o (sets.map .ok ++ .error e :: rest)) e
      (sets.length = 0 ∨ ∃ v, Operation.difference.HoldsAmong v sets) := by
  by_cases hnone : sets = []
  · subst hnone
    exact ⟨fun _ => rfl, fun h => absurd (.inl rfl) h⟩
  · obtain ⟨t, ht, hyields⟩ := exists_yields (ε := ε) hsets .difference o
    refine failsIff_of_yields hyields (or_iff_right fun h => hnone (List.length_eq_zero_iff.1 h)) ?_
    rw [difference_append (by rwa [ne_eq, List.map_eq_nil_iff]) ht, foldWhileNonempty_failure]

theorem intersection_failure (hsets : ∀ s ∈ sets, s.Valid) (e : ε) (rest : List (Except ε IntSet)) :
    FailsIff (intersection o (sets.map .ok ++ .error e :: rest)) e
      (sets.length < 16 ∨ ∃ v, Operation.intersection.HoldsAmong v sets) := by
  by_cases hfew : sets.length < 16
  · refine ⟨fun _ => ?_, fun h => absurd (.inl hfew) h⟩
    have hsome : headSize - (sets.map (Except.ok (ε := ε))).length = 15 - sets.length + 1 := by
      rw [List.length_map, headSize]
      omega
    rw [intersection, List.take_append, List.take_of_length_le (by rw [List.length_map]; exact hfew.le),
      hsome, List.take_succ_cons, collect_map_ok_append]
    rfl
  · obtain ⟨t, ht, hyields⟩ := exists_yields (ε := ε) hsets .intersection o
    refine failsIff_of_yields hyields (or_iff_right hfew) ?_
    rw [intersection_append (by rw [List.length_map]; exact Nat.not_lt.1 hfew) ht,
      foldWhileNonempty_failure]

/-- What becomes of a failure, by the number of inputs before it and by what the operation gives
among these. -/
theorem apply_failures (hinputs : ∀ s, .ok s ∈ inputs → s.Valid) (o : Ownership) :
    ((∀ input ∈ inputs, ∀ e, input ≠ .error e) →
        ∀ op, ∃ t, apply op o inputs = .ok t ∧ op.Yields (okSets inputs) t) ∧
      ∀ i e, FirstFailure inputs i e →
        apply .union o inputs = .error e ∧ apply .symmetricDifference o inputs = .error e ∧
        FailsIff (apply .difference o inputs) e
          (i = 0 ∨ ∃ v, Operation.difference.HoldsAmong v (okSets (inputs.take i))) ∧
        FailsIff (apply .intersection o inputs) e
          (i < 16 ∨ ∃ v, Operation.intersection.HoldsAmong v (okSets (inputs.take i))) := by
  constructor
  · intro hnone op
    have heq := eq_map_okSets hnone
    have hsets : ∀ s ∈ okSets inputs, s.Valid := fun s hs => hinputs s (by
      rw [heq]
      exact List.mem_map_of_mem hs)
    rw [heq, okSets_map_ok]
    exact exists_yields hsets op o
  · intro i e h
    have hsplit := h.split
    have hlength := h.length_okSets
    have hsets : ∀ s ∈ okSets (inputs.take i), s.Valid := fun s hs => hinputs s (by
      rw [hsplit]
      exact List.mem_append_left _ (List.mem_map_of_mem hs))
    generalize okSets (inputs.take i) = sets at hsplit hlength hsets ⊢
    generalize inputs.drop (i + 1) = rest at hsplit
    subst hlength
    subst hsplit
    refine ⟨?_, ?_, difference_failure hsets e rest, intersection_failure hsets e rest⟩
    · rw [apply, union, unionFrom_map_ok_append]
      rfl
    · rw [apply, symmetricDifference, toggleAll_map_ok_append]
      rfl

/-- One value is left of the first difference. Nothing is left of the second intersection, and the
sixteen inputs before its failure are as many as are read in any case. -/
theorem apply_failures_mixed :
    let s : IntSet := ⟨#[⟨0, .array ⟨#[1, 2, 5]⟩⟩]⟩
    let t : IntSet := ⟨#[⟨0, .runs ⟨#[⟨2, 9⟩]⟩⟩, ⟨65535, .array ⟨#[0]⟩⟩]⟩
    let u : IntSet := ⟨#[⟨7, .runs ⟨#[⟨0, 9⟩, ⟨12, 65535⟩]⟩⟩]⟩
    let few : List (Except Nat IntSet) := [.ok s, .ok t, .error 3, .ok u, .error 4]
    let many : List (Except Nat IntSet) := List.replicate 15 (.ok s) ++ [.ok u, .error 3]
    (∀ r, .ok r ∈ few → r.Valid) ∧ (∀ r, .ok r ∈ many → r.Valid) ∧
      FirstFailure few 2 3 ∧ FirstFailure many 16 3 ∧
      apply .union .given few = .error 3 ∧ apply .difference .kept few = .error 3 ∧
      apply .intersection .kept few = .error 3 ∧
      apply .symmetricDifference .given many = .error 3 ∧
      apply .intersection .given many = .ok .empty := by
  intro s t u few many
  have hsets : ∀ r ∈ [s, t, u], r.Valid := by decide
  have hfew : ∀ r, .ok r ∈ few → r.Valid := fun r hr => hsets r (by
    simp only [few, List.mem_cons, Except.ok.injEq, reduceCtorEq, List.not_mem_nil] at hr ⊢
    tauto)
  have hmany : ∀ r, .ok r ∈ many → r.Valid := fun r hr => hsets r (by
    simp only [many, List.mem_append, List.mem_replicate, List.mem_cons, Except.ok.injEq,
      reduceCtorEq, List.not_mem_nil] at hr ⊢
    tauto)
  have hfirstFew : FirstFailure few 2 3 :=
    ⟨rfl, by simp [few]⟩
  have hfirstMany : FirstFailure many 16 3 :=
    ⟨rfl, by simp [many]⟩
  have hapart : ¬∃ v, Operation.intersection.HoldsAmong v (okSets (many.take 16)) := by
    rintro ⟨v, -, hall⟩
    obtain ⟨e, he, hkey, -⟩ := (IntSet.mem_def s v).1 (hall s (by decide))
    obtain ⟨f, hf, hkey', -⟩ := (IntSet.mem_def u v).1 (hall u (by decide))
    rw [List.mem_singleton.1 he] at hkey
    rw [List.mem_singleton.1 hf, ← hkey] at hkey'
    cases hkey'
  refine ⟨hfew, hmany, hfirstFew, hfirstMany, ?_, ?_, ?_, ?_, ?_⟩
  · exact ((apply_failures hfew .given).2 2 3 hfirstFew).1
  · exact ((apply_failures hfew .kept).2 2 3 hfirstFew).2.2.1.1 (.inr ⟨1, by decide⟩)
  · exact ((apply_failures hfew .kept).2 2 3 hfirstFew).2.2.2.1 (.inl (by decide))
  · exact ((apply_failures hmany .given).2 16 3 hfirstMany).2.1
  · exact ((apply_failures hmany .given).2 16 3 hfirstMany).2.2.2.2
      (not_or.2 ⟨by decide, hapart⟩)

end Many

end ChunkedSet
