import ChunkedSet.Proofs.Layout
import ChunkedSet.Proofs.SetTrim

/-!
# Canonical representations

Which of the three representations takes the fewest bytes depends on the positions alone. Giving
each chunk the shortest one, or giving up all runs, leads to one and the same set from whatever
set of the same values it starts.
-/

namespace ChunkedSet

inductive Kind
  | array
  | block
  | runs
deriving DecidableEq

namespace Kind

def payload? : Kind → Finset Nat → Option Nat
  | array, S => if S.card ≤ 4096 then some (2 * S.card) else none
  | block, _ => some 8192
  | runs, S => some (2 + 4 * (starts S).card)

/-- No other kind has a smaller payload, and runs are strictly the smallest. -/
def Smallest (kind : Kind) (S : Finset Nat) : Prop :=
  ∃ n ∈ kind.payload? S, ∀ other, other ≠ kind → ∀ m ∈ other.payload? S,
    n ≤ m ∧ (kind = runs → n < m)

def plain (S : Finset Nat) : Kind := if S.card ≤ 4096 then array else block

def shortest (S : Finset Nat) : Kind :=
  if 2 + 4 * (starts S).card < min (2 * S.card) 8192 then runs else plain S

variable {S : Finset Nat}

theorem smallest_runs (h : 2 + 4 * (starts S).card < min (2 * S.card) 8192) : runs.Smallest S := by
  refine ⟨_, rfl, ?_⟩
  rintro (_ | _ | _) hne m hm
  · simp only [payload?, Option.mem_def, Option.ite_none_right_eq_some, Option.some_inj] at hm
    omega
  · simp only [payload?, Option.mem_def, Option.some_inj] at hm
    omega
  · exact absurd rfl hne

theorem smallest_array (hcard : S.card ≤ 4096)
    (h : ¬2 + 4 * (starts S).card < min (2 * S.card) 8192) : array.Smallest S := by
  refine ⟨2 * S.card, by simp [payload?, hcard], ?_⟩
  rintro (_ | _ | _) hne m hm
  · exact absurd rfl hne
  · simp only [payload?, Option.mem_def, Option.some_inj] at hm
    exact ⟨by omega, nofun⟩
  · simp only [payload?, Option.mem_def, Option.some_inj] at hm
    exact ⟨by omega, nofun⟩

theorem smallest_block (hcard : ¬S.card ≤ 4096)
    (h : ¬2 + 4 * (starts S).card < min (2 * S.card) 8192) : block.Smallest S := by
  refine ⟨8192, rfl, ?_⟩
  rintro (_ | _ | _) hne m hm
  · simp [payload?, hcard] at hm
  · exact absurd rfl hne
  · simp only [payload?, Option.mem_def, Option.some_inj] at hm
    exact ⟨by omega, nofun⟩

theorem smallest_shortest (S : Finset Nat) : (shortest S).Smallest S := by
  simp only [shortest, plain]
  split_ifs with hruns hcard
  · exact smallest_runs hruns
  · exact smallest_array hcard hruns
  · exact smallest_block hcard hruns

end Kind

namespace Chunk

def kind : Chunk → Kind
  | array _ => .array
  | block _ => .block
  | runs _ => .runs

theorem isRuns_iff {c : Chunk} : c.isRuns = true ↔ c.kind = .runs := by
  cases c <;> simp [isRuns, kind]

def support (c : Chunk) : Finset Nat := {p ∈ Finset.range chunkSize | p ∈ c}

variable {c d : Chunk} {S : Finset Nat}

theorem Denotes.support_eq (h : c.Denotes S) : c.support = S := by
  ext p
  simp only [support, Finset.mem_filter, Finset.mem_range, h.2 p, and_iff_right_iff_imp]
  exact h.lt

theorem WellFormed.payload? (h : c.Denotes S) (hwf : c.WellFormed) :
    c.kind.payload? S = some c.encode.length := by
  have hsize := h.size
  have hcount := h.runCount
  rw [length_encode]
  cases c with
  | array a =>
    have hle : S.card ≤ 4096 := hsize ▸ hwf.2
    simp only [size] at hsize
    simp [kind, Kind.payload?, hle, bytes, arrayBytes, hsize]
  | block b => rfl
  | runs l =>
    simp only [runCount] at hcount
    simp [kind, Kind.payload?, bytes, runBytes, hcount]

theorem Denotes.eq_of_kind (hc : c.Denotes S) (hd : d.Denotes S) (h : c.kind = d.kind) : c = d := by
  apply hc.eq hd
  · cases c <;> cases d <;> first | rfl | cases h
  · cases c <;> cases d <;> first | rfl | cases h

theorem settlePlain_kind (h : c.Denotes S) : c.settlePlain.kind = .plain S := by
  simp only [settlePlain, Kind.plain, h.size, arrayLimit]
  split_ifs
  · cases c <;> rfl
  · rfl

theorem WellFormed.kind_eq (h : c.Denotes S) (hwf : c.WellFormed) (hruns : c.kind ≠ .runs) :
    c.kind = .plain S := by
  have hsize := h.size
  cases c with
  | array a => simp_all [WellFormed, kind, Kind.plain, size, arrayLimit]
  | block b =>
    have hlong := hwf.2
    simp_all [kind, Kind.plain, size, arrayLimit]
  | runs l => exact absurd rfl hruns

theorem withoutRuns_spec (h : c.Denotes S) (hwf : c.WellFormed) :
    c.withoutRuns.1.kind = .plain S ∧ (c.withoutRuns.2 = true ↔ c.kind = .runs) := by
  cases c with
  | array a =>
    have hplain := hwf.kind_eq h (by simp [kind])
    exact ⟨hplain, by simp [withoutRuns, isRuns, kind]⟩
  | block b =>
    have hplain := hwf.kind_eq h (by simp [kind])
    exact ⟨hplain, by simp [withoutRuns, isRuns, kind]⟩
  | runs l => exact ⟨settlePlain_kind h, by simp [withoutRuns, isRuns, kind]⟩

theorem optimize_spec (h : c.Denotes S) (hwf : c.WellFormed) :
    c.optimize.1.kind = .shortest S ∧ (c.optimize.2 = true ↔ c.kind ≠ .shortest S) ∧
      (c.kind = .shortest S → c.optimize.1 = c) := by
  have hcount := h.runCount
  have hsize := h.size
  cases c with
  | array a =>
    have hplain := hwf.kind_eq h (by simp [kind])
    have hle : S.card ≤ 4096 := hsize ▸ hwf.2
    simp only [runCount, size] at hcount hsize
    simp only [optimize, runCount, runBytes, arrayBytes, hcount, hsize, Kind.shortest, ← hplain]
    split_ifs <;> first | omega | simp [kind, toRuns]
  | block b =>
    have hplain := hwf.kind_eq h (by simp [kind])
    have hlt : 4096 < S.card := hsize ▸ hwf.2
    simp only [runCount, size] at hcount hsize
    simp only [optimize, runCount, runBytes, blockBytes, hcount, Kind.shortest, ← hplain]
    split_ifs <;> first | omega | simp [kind, toRuns]
  | runs l =>
    have hplain := settlePlain_kind h
    have hruns : Kind.plain S ≠ .runs := by
      simp only [Kind.plain]
      split_ifs <;> simp
    simp only [runCount, size] at hcount hsize
    simp only [optimize, runCount, runBytes, plainBytes, arrayBytes, blockBytes, hcount, hsize,
      Kind.shortest]
    split_ifs
    · simp [kind]
    · refine ⟨hplain, ?_, fun heq => absurd heq.symm hruns⟩
      simp [withoutRuns, isRuns, kind, hruns.symm]

end Chunk

/-! Sets whose kinds are determined by their positions. -/

def Chunk.Follows (rule : Finset Nat → Kind) (c : Chunk) : Prop :=
  c.WellFormed ∧ c.kind = rule c.support

theorem Segment.unique {α : Type} {key : α → Nat} {Stands : α → Finset Nat → Prop}
    {F : Nat → Finset Nat} {a b : Nat} {xs ys : List α}
    (hnonempty : ∀ x S, Stands x S → S.Nonempty)
    (heq : ∀ x y S, key x = key y → Stands x S → Stands y S → x = y)
    (hxs : Segment key Stands F a b xs) (hys : Segment key Stands F a b ys) : xs = ys := by
  induction xs generalizing a ys with
  | nil =>
    cases ys with
    | nil => rfl
    | cons y ys =>
      obtain ⟨⟨hay, hyb, hy⟩, -⟩ := Segment.cons_iff.1 hys
      have hempty := Segment.nil_iff.1 hxs _ hay hyb
      exact absurd hempty (hnonempty y _ hy).ne_empty
  | cons x xs ih =>
    obtain ⟨⟨hax, hxb, hx⟩, hbefore, hxs⟩ := Segment.cons_iff.1 hxs
    cases ys with
    | nil =>
      have hempty := Segment.nil_iff.1 hys _ hax hxb
      exact absurd hempty (hnonempty x _ hx).ne_empty
    | cons y ys =>
      obtain ⟨⟨hay, hyb, hy⟩, hbefore', hys⟩ := Segment.cons_iff.1 hys
      have hkey : key x = key y := by
        rcases Nat.lt_trichotomy (key x) (key y) with hlt | heq | hgt
        · exact absurd (hbefore' _ hax hlt) (hnonempty x _ hx).ne_empty
        · exact heq
        · exact absurd (hbefore _ hay hgt) (hnonempty y _ hy).ne_empty
      rw [← hkey] at hy hys
      rw [heq x y _ hkey hx hy, ih hxs hys]

namespace IntSet

variable {F G : Nat → Finset Nat} {s t : IntSet} {rule : Finset Nat → Kind}

theorem Denotes.unique (hs : s.Denotes (Chunk.Follows rule) F)
    (ht : t.Denotes (Chunk.Follows rule) F) : s = t := by
  have hlist : s.entries.toList = t.entries.toList := by
    apply Segment.unique (fun e S he => he.2.2) _ hs ht
    rintro ⟨k, c⟩ ⟨l, d⟩ S hkey ⟨hc, hfc, -⟩ ⟨hd, hfd, -⟩
    have hkind : c.kind = d.kind := by rw [hfc.2, hfd.2, hc.support_eq, hd.support_eq]
    cases hkey
    exact congrArg (Entry.mk k) (hc.eq_of_kind hd hkind)
  exact congrArg IntSet.mk (Array.toList_inj.1 hlist)

theorem mapChunks_follows (h : s.Denotes Chunk.WellFormed F) {f : Chunk → Chunk × Bool}
    (hf : ∀ (c : Chunk) (S : Finset Nat), c.Denotes S → c.WellFormed →
      (f c).1.Denotes S ∧ ((f c).1 = c ∨ (f c).1.fits = true) ∧ (f c).1.kind = rule S) :
    (s.mapChunks f).1.Denotes (Chunk.Follows rule) F := by
  apply mapChunks_denotes h
  intro c S hc hwf
  obtain ⟨hden, hstep, hkind⟩ := hf c S hc hwf
  refine ⟨hden, ?_, hkind.trans (congrArg rule hden.support_eq.symm)⟩
  rcases hstep with heq | hfits
  · rwa [heq]
  · exact Chunk.wellFormed_of_fits hden.valid hfits

theorem optimize_follows (h : s.Denotes Chunk.WellFormed F) :
    s.optimize.1.Denotes (Chunk.Follows .shortest) F :=
  mapChunks_follows h fun _ _ hc hwf =>
    ⟨Chunk.optimize_denotes hc, Chunk.optimize_eq_or_fits hc hwf, (Chunk.optimize_spec hc hwf).1⟩

theorem withoutRuns_follows (h : s.Denotes Chunk.WellFormed F) :
    s.withoutRuns.1.Denotes (Chunk.Follows .plain) F :=
  mapChunks_follows h fun _ _ hc hwf =>
    ⟨Chunk.withoutRuns_denotes hc, Chunk.withoutRuns_eq_or_fits hc,
      (Chunk.withoutRuns_spec hc hwf).1⟩

/-! The flag of a change of representation. -/

theorem mapChunks_keys (s : IntSet) (f : Chunk → Chunk × Bool) :
    (s.mapChunks f).1.keys = s.keys := by
  simp [keys, mapChunks_eq, Function.comp_def]

def kinds (s : IntSet) : List Kind := s.entries.toList.map (·.chunk.kind)

theorem optimize_flag (h : s.WellFormed) : s.optimize.2 = true ↔ s.optimize.1.kinds ≠ s.kinds := by
  have hspec : ∀ e ∈ s.entries.toList,
      (e.chunk.optimize.2 = true ↔ e.chunk.optimize.1.kind ≠ e.chunk.kind) := by
    intro e he
    obtain ⟨S, hS⟩ := (h.valid.2 e he).2.1.denotes
    obtain ⟨hkind, hflag, -⟩ := Chunk.optimize_spec hS (h.2 e he).2.1
    rw [hflag, hkind, ne_comm]
  simp only [optimize, mapChunks_flag, kinds, mapChunks_eq, List.map_map, ne_eq, List.map_inj_left,
    List.any_eq_true, Function.comp_apply]
  push Not
  exact exists_congr fun e => and_congr_right fun he => hspec e he

theorem withoutRuns_flag (h : s.WellFormed) : s.withoutRuns.2 = true ↔ .runs ∈ s.kinds := by
  simp only [withoutRuns, mapChunks_flag, kinds, List.mem_map, List.any_eq_true]
  apply exists_congr
  intro e
  apply and_congr_right
  intro he
  obtain ⟨S, hS⟩ := (h.valid.2 e he).2.1.denotes
  exact (Chunk.withoutRuns_spec hS (h.2 e he).2.1).2

theorem optimize_eq_self (h : s.Denotes (Chunk.Follows .shortest) F) :
    s.optimize = (s, false) := by
  have hspec : ∀ e ∈ s.entries.toList, e.chunk.optimize.1 = e.chunk ∧ e.chunk.optimize.2 = false := by
    intro e he
    obtain ⟨-, -, hS, ⟨hwf, hkind⟩, -⟩ := h.element e he
    rw [hS.support_eq] at hkind
    obtain ⟨-, hflag, hself⟩ := Chunk.optimize_spec hS hwf
    exact ⟨hself hkind, by simpa [hkind] using hflag⟩
  have hlist : s.optimize.1.entries.toList = s.entries.toList := by
    rw [optimize, mapChunks_eq]
    apply (List.map_congr_left _).trans (List.map_id _)
    intro e he
    rw [(hspec e he).1, id]
  refine Prod.ext (congrArg IntSet.mk (Array.toList_inj.1 hlist)) ?_
  rw [optimize, mapChunks_flag, List.any_eq_false]
  intro e he
  rw [(hspec e he).2]
  exact Bool.false_ne_true

theorem slots_congr (hmem : ∀ v, v ∈ s ↔ v ∈ t) : s.slots = t.slots := by
  funext k
  simp [slots, hmem]

/-- Each change of representation keeps the keys and the values, leaves each chunk in the kind
that its positions alone call for, and tells whether it did something. It therefore takes sets of
the same values to the same bytes. -/
theorem representation_canonical (hs : s.WellFormed) :
    (s.optimize.1.WellFormed ∧ s.optimize.1.keys = s.keys ∧ (∀ v, v ∈ s.optimize.1 ↔ v ∈ s) ∧
      (∀ e ∈ s.optimize.1.entries.toList, e.chunk.kind.Smallest e.chunk.support ∧
        e.chunk.kind.payload? e.chunk.support = some e.chunk.encode.length) ∧
      (s.optimize.2 = true ↔ s.optimize.1.kinds ≠ s.kinds) ∧
      s.optimize.1.optimize = (s.optimize.1, false)) ∧
    (s.withoutRuns.1.WellFormed ∧ s.withoutRuns.1.keys = s.keys ∧
      (∀ v, v ∈ s.withoutRuns.1 ↔ v ∈ s) ∧
      (∀ e ∈ s.withoutRuns.1.entries.toList,
        e.chunk.kind = if e.chunk.support.card ≤ 4096 then .array else .block) ∧
      (s.withoutRuns.2 = true ↔ .runs ∈ s.kinds)) ∧
    ∀ t : IntSet, t.WellFormed → (∀ v, v ∈ t ↔ v ∈ s) →
      t.optimize.1.encode = s.optimize.1.encode ∧
      t.withoutRuns.1.encode = s.withoutRuns.1.encode := by
  have hoptimize := optimize_follows hs.denotes
  have hplain := withoutRuns_follows hs.denotes
  refine ⟨⟨?_, mapChunks_keys _ _, fun v => hoptimize.mem_iff hs.denotes, ?_, optimize_flag hs,
    optimize_eq_self hoptimize⟩, ⟨?_, mapChunks_keys _ _, fun v => hplain.mem_iff hs.denotes, ?_,
    withoutRuns_flag hs⟩, fun t ht hmem => ⟨?_, ?_⟩⟩
  · exact hoptimize.wellFormed fun c _ hc => hc.1
  · intro e he
    obtain ⟨-, -, hden, ⟨hwf, hkind⟩, -⟩ := hoptimize.element e he
    rw [← hden.support_eq] at hden
    exact ⟨hkind ▸ Kind.smallest_shortest _, hwf.payload? hden⟩
  · exact hplain.wellFormed fun c _ hc => hc.1
  · intro e he
    exact (hplain.element e he).2.2.2.1.2
  · have hden := optimize_follows ht.denotes
    rw [slots_congr hmem] at hden
    rw [hden.unique hoptimize]
  · have hden := withoutRuns_follows ht.denotes
    rw [slots_congr hmem] at hden
    rw [hden.unique hplain]

theorem representation_canonical_mixed :
    let s : IntSet := ⟨#[⟨0, .array ⟨#[1, 2, 3, 4, 9]⟩⟩, ⟨7, .runs ⟨#[⟨0, 0⟩, ⟨2, 2⟩]⟩⟩]⟩
    let t : IntSet := ⟨#[⟨0, .runs ⟨#[⟨1, 4⟩, ⟨9, 9⟩]⟩⟩, ⟨7, .array ⟨#[0, 2]⟩⟩]⟩
    s.WellFormed ∧ t.WellFormed ∧ (∀ v, v ∈ t ↔ v ∈ s) ∧
      s.optimize.1.optimize = (s.optimize.1, false) ∧
      t.optimize.1.encode = s.optimize.1.encode := by
  intro s t
  have hs : s.WellFormed := by decide
  have ht : t.WellFormed := by decide
  have hlist : t.toList = s.toList := by decide
  have hmem : ∀ v, v ∈ t ↔ v ∈ s := by
    intro v
    rw [← ht.denotes.mem_toList, hlist, hs.denotes.mem_toList]
  have h := representation_canonical hs
  exact ⟨hs, ht, hmem, h.1.2.2.2.2.2, (h.2.2 t ht hmem).1⟩

end IntSet

end ChunkedSet
