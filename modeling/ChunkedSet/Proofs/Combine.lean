import ChunkedSet.IntSet.Algebra
import ChunkedSet.Proofs.SetDenotes

/-!
# Set operations on sets of integers

A merge by key visits the keys in order. A key that neither operand has leaves everything as it
is, and the entry that a step pushes denotes the combination of what the operands have there.
-/

namespace ChunkedSet

namespace Pairing

variable {β : Type} {f : β → Pairing → β} {Stands Stands' : Entry → Finset Nat → Prop}
  {F G : Nat → Finset Nat} {I : Nat → β → Prop} {a b c : Nat}

/-- What holds up to a key still holds behind keys without entries. -/
theorem skip_keys (hskip : ∀ k out, k < b → F k = ∅ → G k = ∅ → I k out → I (k + 1) out)
    (hac : a ≤ c) (hcb : c ≤ b) (hF : ∀ k, a ≤ k → k < c → F k = ∅)
    (hG : ∀ k, a ≤ k → k < c → G k = ∅) {out : β} (h : I a out) : I c out := by
  induction c, hac using Nat.le_induction with
  | base => exact h
  | succ c hac ih =>
    have hc := ih (Nat.le_of_succ_le hcb) (fun k hak hkc => hF k hak (Nat.lt_succ_of_lt hkc))
      fun k hak hkc => hG k hak (Nat.lt_succ_of_lt hkc)
    exact hskip c out hcb (hF c hac (Nat.lt_succ_self c)) (hG c hac (Nat.lt_succ_self c)) hc

theorem fold_keys (hskip : ∀ k out, k < b → F k = ∅ → G k = ∅ → I k out → I (k + 1) out)
    (hleft : ∀ out x, x.key < b → Stands x (F x.key) → G x.key = ∅ → I x.key out →
      I (x.key + 1) (f out (.left x)))
    (hright : ∀ out y, y.key < b → F y.key = ∅ → Stands' y (G y.key) → I y.key out →
      I (y.key + 1) (f out (.right y)))
    (hboth : ∀ out x y, x.key < b → x.key = y.key → Stands x (F x.key) → Stands' y (G x.key) →
      I x.key out → I (x.key + 1) (f out (.both x y)))
    {xs ys : List Entry} (hab : a ≤ b) (hxs : Segment Entry.key Stands F a b xs)
    (hys : Segment Entry.key Stands' G a b ys) {out : β} (h : I a out) :
    I b (fold f xs ys out) := by
  induction xs, ys, out using fold.induct (f := f) generalizing a with
  | case1 out ys =>
    rw [fold]
    induction ys generalizing a out with
    | nil =>
      exact skip_keys hskip hab (Nat.le_refl b) (Segment.nil_iff.1 hxs) (Segment.nil_iff.1 hys) h
    | cons y rest ih =>
      obtain ⟨hy, hbefore, hrest⟩ := Segment.cons_iff.1 hys
      have hnone := Segment.nil_iff.1 hxs
      have hkey := skip_keys hskip hy.1 hy.2.1.le (fun k hak hky => hnone k hak (hky.trans hy.2.1))
        hbefore h
      refine ih _ hy.2.1 (Segment.nil_iff.2 fun k hyk hkb => hnone k (by omega) hkb) hrest ?_
      exact hright out y hy.2.1 (hnone _ hy.1 hy.2.1) hy.2.2 hkey
  | case2 out xs hne =>
    have hfold : fold f xs [] out = xs.foldl (fun out x => f out (.left x)) out := by
      cases xs with
      | nil => exact absurd rfl hne
      | cons x rest => simp [fold]
    rw [hfold]
    clear hne hfold
    induction xs generalizing a out with
    | nil =>
      exact skip_keys hskip hab (Nat.le_refl b) (Segment.nil_iff.1 hxs) (Segment.nil_iff.1 hys) h
    | cons x rest ih =>
      obtain ⟨hx, hbefore, hrest⟩ := Segment.cons_iff.1 hxs
      have hnone := Segment.nil_iff.1 hys
      have hkey := skip_keys hskip hx.1 hx.2.1.le hbefore
        (fun k hak hkx => hnone k hak (hkx.trans hx.2.1)) h
      refine ih _ hx.2.1 hrest (Segment.nil_iff.2 fun k hxk hkb => hnone k (by omega) hkb) ?_
      exact hleft out x hx.2.1 hx.2.2 (hnone _ hx.1 hx.2.1) hkey
  | case3 out x xs y ys hlt ih =>
    obtain ⟨hx, hbeforex, hrest⟩ := Segment.cons_iff.1 hxs
    obtain ⟨-, hbeforey, -⟩ := Segment.cons_iff.1 hys
    have hkey := skip_keys hskip hx.1 hx.2.1.le hbeforex
      (fun k hak hkx => hbeforey k hak (hkx.trans hlt)) h
    have hys' := hys.raise (c := x.key + 1) (by omega) fun z hz => by
      rcases List.mem_cons.1 hz with rfl | hz
      · exact hlt
      · have hle := (Segment.cons_iff.1 hys).2.2.element z hz
        omega
    rw [fold, if_pos hlt]
    exact ih hx.2.1 hrest hys' (hleft out x hx.2.1 hx.2.2 (hbeforey _ hx.1 hlt) hkey)
  | case4 out x xs y ys hge hlt ih =>
    obtain ⟨-, hbeforex, -⟩ := Segment.cons_iff.1 hxs
    obtain ⟨hy, hbeforey, hrest⟩ := Segment.cons_iff.1 hys
    have hkey := skip_keys hskip hy.1 hy.2.1.le (fun k hak hky => hbeforex k hak (hky.trans hlt))
      hbeforey h
    have hxs' := hxs.raise (c := y.key + 1) (by omega) fun z hz => by
      rcases List.mem_cons.1 hz with rfl | hz
      · exact hlt
      · have hle := (Segment.cons_iff.1 hxs).2.2.element z hz
        omega
    rw [fold, if_neg hge, if_pos hlt]
    exact ih hy.2.1 hxs' hrest (hright out y hy.2.1 (hbeforex _ hy.1 hlt) hy.2.2 hkey)
  | case5 out x xs y ys hge hge' ih =>
    have heq : x.key = y.key := by omega
    obtain ⟨hx, hbeforex, hrestx⟩ := Segment.cons_iff.1 hxs
    obtain ⟨hy, hbeforey, hresty⟩ := Segment.cons_iff.1 hys
    rw [← heq] at hy hbeforey hresty
    have hkey := skip_keys hskip hx.1 hx.2.1.le hbeforex hbeforey h
    rw [fold, if_neg hge, if_neg hge']
    exact ih hx.2.1 hrestx hresty (hboth out x y hx.2.1 heq hx.2.2 hy.2.2 hkey)

end Pairing

namespace Operation

theorem onSets_empty_left (op : Operation) (T : Finset Nat) :
    op.onSets ∅ T = if op.keepsRight then T else ∅ := by
  ext p
  cases op <;> simp [mem_onSets, Holds, keepsRight]

theorem onSets_empty_right (op : Operation) (S : Finset Nat) :
    op.onSets S ∅ = if op.keepsLeft then S else ∅ := by
  ext p
  cases op <;> simp [mem_onSets, Holds, keepsLeft]

theorem onSets_empty (op : Operation) : op.onSets ∅ ∅ = ∅ := by
  rw [onSets_empty_left, ite_self]

def Keeps (op : Operation) (P : Chunk → Prop) : Prop :=
  ∀ {c d e : Chunk} {S T : Finset Nat}, c.Denotes S → d.Denotes T → P c → P d → op.Either c d e →
    P e.settle

theorem keeps_of_grade {P : Chunk → Prop} (op : Operation) (hP : Chunk.Grade P) : op.Keeps P := by
  intro c d e S T hc hd _ _ he
  exact hP.settle (denotes_of_either hc hd he)

end Operation

namespace IntSet

variable {P : Chunk → Prop} {F G : Nat → Finset Nat} {s t : IntSet}

theorem mergeBy_denotes {op : Operation} (hP : op.Keeps P) {f : Chunk → Chunk → Chunk}
    (hf : ∀ c d, op.Either c d (f c d))
    (hs : s.Denotes P F) (ht : t.Denotes P G) :
    (mergeBy op f s t).Denotes P fun k => op.onSets (F k) (G k) := by
  refine Pairing.fold_keys (I := fun k (out : Array Entry) =>
    Segment Entry.key (Entry.Denotes P) (fun k => op.onSets (F k) (G k)) 0 k out.toList)
    ?_ ?_ ?_ ?_ (Nat.zero_le _) hs ht (Segment.nil _ 0)
  · intro k out _ hF hG hout
    refine hout.extend (Nat.zero_le k) (Nat.le_succ k) fun i hki hik => ?_
    rw [Nat.le_antisymm (Nat.le_of_lt_succ hik) hki, hF, hG, op.onSets_empty]
  · intro out x _ hx hG hout
    have hset : op.onSets (F x.key) (G x.key) = if op.keepsLeft then F x.key else ∅ := by
      rw [hG, op.onSets_empty_right]
    dsimp only
    split
    · rename_i hkeep
      rw [if_pos hkeep] at hset
      refine pushNonempty_segment hout (Nat.zero_le _) (Nat.le_refl _)
        (fun k hk hk' => absurd hk' (Nat.not_lt.2 hk)) ?_ fun _ => hx.2.1
      rw [hset]
      exact hx.1
    · rename_i hdrop
      rw [if_neg hdrop] at hset
      refine hout.extend (Nat.zero_le _) (Nat.le_succ _) fun i hki hik => ?_
      rw [Nat.le_antisymm (Nat.le_of_lt_succ hik) hki, hset]
  · intro out y _ hF hy hout
    have hset : op.onSets (F y.key) (G y.key) = if op.keepsRight then G y.key else ∅ := by
      rw [hF, op.onSets_empty_left]
    dsimp only
    split
    · rename_i hkeep
      rw [if_pos hkeep] at hset
      refine pushNonempty_segment hout (Nat.zero_le _) (Nat.le_refl _)
        (fun k hk hk' => absurd hk' (Nat.not_lt.2 hk)) ?_ fun _ => hy.2.1
      rw [hset]
      exact hy.1
    · rename_i hdrop
      rw [if_neg hdrop] at hset
      refine hout.extend (Nat.zero_le _) (Nat.le_succ _) fun i hki hik => ?_
      rw [Nat.le_antisymm (Nat.le_of_lt_succ hik) hki, hset]
  · intro out x y _ heq hx hy hout
    have hden := Operation.denotes_of_either hx.1 hy.1 (hf x.chunk y.chunk)
    exact pushNonempty_segment (e := ⟨x.key, (f x.chunk y.chunk).settle⟩) hout (Nat.zero_le _)
      (Nat.le_refl _) (fun k hk hk' => absurd hk' (Nat.not_lt.2 hk)) (Chunk.settle_denotes hden)
      fun _ => hP hx.1 hy.1 hx.2.1 hy.2.1 (hf _ _)

theorem combine_denotes_of_keeps {op : Operation} (hP : op.Keeps P) (handover : Handover)
    (hs : s.Denotes P F) (ht : t.Denotes P G) :
    (combine op handover s t).Denotes P fun k => op.onSets (F k) (G k) := by
  have happly : (apply op s t).Denotes P fun k => op.onSets (F k) (G k) :=
    mergeBy_denotes hP op.onChunks_either hs ht
  have honto : (applyOnto op s t).Denotes P fun k => op.onSets (F k) (G k) :=
    mergeBy_denotes hP op.ontoLeft_either hs ht
  have htaking : (applyTaking op s t).Denotes P fun k => op.onSets (F k) (G k) := by
    rw [applyTaking]
    split
    · rename_i hunion
      have hswap : (fun k => op.onSets (F k) (G k)) = fun k => op.onSets (G k) (F k) := by
        funext k
        exact Operation.onSets_comm (by rw [hunion.1]; decide) (F k) (G k)
      rw [hswap]
      exact mergeBy_denotes hP op.taking_either ht hs
    · exact mergeBy_denotes hP op.taking_either hs ht
  cases handover with
  | neither => exact happly
  | right =>
    rw [combine]
    split
    · exact happly
    · rename_i hop
      have hswap : (fun k => op.onSets (F k) (G k)) = fun k => op.onSets (G k) (F k) := by
        funext k
        exact Operation.onSets_comm hop (F k) (G k)
      rw [hswap]
      exact mergeBy_denotes hP op.ontoLeft_either ht hs
  | left => exact honto
  | both => exact htaking
  | inPlace => exact honto
  | inPlaceTaking => exact htaking

theorem combine_denotes (hP : Chunk.Grade P) (op : Operation) (handover : Handover)
    (hs : s.Denotes P F) (ht : t.Denotes P G) :
    (combine op handover s t).Denotes P fun k => op.onSets (F k) (G k) :=
  combine_denotes_of_keeps (op.keeps_of_grade hP) handover hs ht

theorem mem_combine (op : Operation) (handover : Handover) (hs : s.Valid) (ht : t.Valid) (v : Nat) :
    v ∈ combine op handover s t ↔ op.Holds (v ∈ s) (v ∈ t) := by
  have hden := combine_denotes Chunk.grade_valid op handover hs.denotes ht.denotes
  by_cases hv : v < domainSize
  · rw [hden.mem hv, op.mem_onSets, ← hs.denotes.mem hv, ← ht.denotes.mem hv]
  · have hout : ∀ {u : IntSet}, u.Valid → v ∉ u := fun hu hmem => hv (hu.lt_domainSize hmem)
    have hnone : ¬op.Holds (v ∈ s) (v ∈ t) := by
      cases op <;> simp [Operation.Holds, hout hs, hout ht]
    exact iff_of_false (hout hden.valid) hnone

/-- The four operations yield valid sets of the right values, so that the values of a result do
not depend on the representations of the operands. -/
theorem combine_correct (op : Operation) (handover : Handover) (hs : s.Valid) (ht : t.Valid) :
    (combine op handover s t).Valid ∧
      (∀ v, v ∈ combine op handover s t ↔ op.Holds (v ∈ s) (v ∈ t)) ∧
      ∀ (handover' : Handover) (s' t' : IntSet), s'.Valid → t'.Valid → (∀ v, v ∈ s' ↔ v ∈ s) →
        (∀ v, v ∈ t' ↔ v ∈ t) →
        ∀ v, v ∈ combine op handover' s' t' ↔ v ∈ combine op handover s t := by
  refine ⟨(combine_denotes Chunk.grade_valid op handover hs.denotes ht.denotes).valid,
    mem_combine op handover hs ht, fun handover' s' t' hs' ht' hss htt v => ?_⟩
  rw [mem_combine op handover' hs' ht', mem_combine op handover hs ht, hss, htt]

theorem combine_correct_mixed :
    let b : Chunk := (Chunk.runs ⟨#[⟨0, 5000⟩]⟩).toBlock
    let s : IntSet :=
      ⟨#[⟨0, .array ⟨#[1, 2, 65535]⟩⟩, ⟨7, .runs ⟨#[⟨0, 9⟩, ⟨12, 65535⟩]⟩⟩, ⟨9, b⟩]⟩
    let t : IntSet := ⟨#[⟨0, .runs ⟨#[⟨2, 4⟩]⟩⟩, ⟨7, b⟩, ⟨9, .array ⟨#[5, 6000]⟩⟩]⟩
    s.Valid ∧ t.Valid ∧ (combine .symmetricDifference .inPlace s t).Valid ∧
      (2 ∈ combine .symmetricDifference .inPlace s t ↔ 2 ∈ s ∧ ¬2 ∈ t ∨ ¬2 ∈ s ∧ 2 ∈ t) := by
  intro b s t
  have hruns : (Chunk.runs ⟨#[⟨0, 5000⟩]⟩).Valid := by decide
  have hb : b.Valid ∧ b.isEmpty = false := ⟨hruns.toBlock.1, hruns.toBlock.2.1⟩
  have hs : s.Valid := ⟨by decide, List.forall_mem_cons.2 ⟨by decide, List.forall_mem_cons.2
    ⟨by decide, List.forall_mem_singleton.2 ⟨by decide, hb⟩⟩⟩⟩
  have ht : t.Valid := ⟨by decide, List.forall_mem_cons.2 ⟨by decide, List.forall_mem_cons.2
    ⟨⟨by decide, hb⟩, List.forall_mem_singleton.2 (by decide)⟩⟩⟩
  have h := combine_correct .symmetricDifference .inPlace hs ht
  exact ⟨hs, ht, h.1, h.2.1 2⟩

end IntSet

end ChunkedSet
