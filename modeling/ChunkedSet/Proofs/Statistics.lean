import ChunkedSet.IntSet.Statistics
import ChunkedSet.Proofs.EntryCursor
import ChunkedSet.Proofs.OptimizedSize
import ChunkedSet.Proofs.Selection

/-!
# Statistics agree with the set

The counters hold the totals of the entries of each kind, at every point of the scan. No entry adds
more than a chunk can hold and there are no more entries than keys, which leaves every counter far
below its width.
-/

namespace ChunkedSet

variable {s : IntSet} {xs : List Entry} {e : Entry}

/-! The extremes. -/

theorem IntSet.Valid.min?_eq (hs : s.Valid) : s.min? = s.toList.head? := by
  have hfirst : s.entries[0]? = s.entries.toList.head? := by
    rw [List.head?_eq_getElem?, Array.getElem?_toList]
  rw [IntSet.min?, hfirst, toList]
  cases hentries : s.entries.toList with
  | nil => rfl
  | cons e rest =>
    obtain ⟨-, hvalid, hsome⟩ := hs.2 e (hentries ▸ List.mem_cons_self)
    have hne : e.toList ≠ [] := fun hnil =>
      hvalid.toList_ne_nil hsome (List.map_eq_nil_iff.1 hnil)
    rw [List.head?_cons, Option.bind_some, hvalid.min?_eq, List.flatMap_cons,
      List.head?_append_of_ne_nil _ hne, Entry.toList, List.head?_map]

theorem IntSet.Valid.min?_least (hs : s.Valid) : Least (· ∈ s) s.min? := by
  rw [hs.min?_eq]
  exact hs.lists.head?

/-! The totals of some entries. -/

namespace KindTotals

def ofEntries (xs : List Entry) : KindTotals :=
  ⟨xs.length, (xs.map Entry.size).sum, (xs.map (·.chunk.bytes)).sum⟩

theorem add_ofEntries (xs : List Entry) (e : Entry) :
    (ofEntries xs).add e.chunk = ofEntries (xs ++ [e]) := by
  simp [ofEntries, add, Entry.size]

def ofKind (kind : Kind) (xs : List Entry) : KindTotals :=
  ofEntries (xs.filter (·.chunk.kind = kind))

variable {kind : Kind}

theorem ofKind_concat (kind : Kind) (xs : List Entry) (e : Entry) :
    ofKind kind (xs ++ [e]) =
      if e.chunk.kind = kind then (ofKind kind xs).add e.chunk else ofKind kind xs := by
  rw [ofKind, List.filter_append, List.filter_singleton]
  split
  · rename_i hkind
    rw [decide_eq_true hkind, ofKind, add_ofEntries]
    rfl
  · rename_i hkind
    rw [decide_eq_false hkind, ofKind]
    simp

theorem sum_ofKind (xs : List Entry) :
    (ofKind .array xs).entries + (ofKind .runs xs).entries + (ofKind .block xs).entries =
        xs.length ∧
      (ofKind .array xs).values + (ofKind .runs xs).values + (ofKind .block xs).values =
        (xs.map Entry.size).sum ∧
      (ofKind .array xs).bytes + (ofKind .runs xs).bytes + (ofKind .block xs).bytes =
        (xs.map (·.chunk.bytes)).sum := by
  induction xs using List.reverseRecOn with
  | nil => exact ⟨rfl, rfl, rfl⟩
  | append_singleton xs e ih =>
    simp only [ofKind_concat, List.length_append, List.map_append, List.sum_append,
      List.length_singleton, List.map_singleton, List.sum_singleton]
    cases e.chunk.kind with
    | array | runs | block =>
      simp only [reduceCtorEq, if_true, if_false, add, Entry.size]
      omega

theorem entries_ofKind_pos : 0 < (ofKind kind xs).entries ↔ kind ∈ xs.map (·.chunk.kind) := by
  rw [ofKind, ofEntries, List.length_pos_iff_exists_mem, List.mem_map]
  simp

end KindTotals

namespace Statistics

def ofEntries (max? min? : Option Nat) (xs : List Entry) : Statistics :=
  ⟨xs.length, .ofKind .array xs, .ofKind .runs xs, .ofKind .block xs, max?, min?,
    (xs.map Entry.size).sum⟩

variable (max? min? : Option Nat)

theorem add_ofEntries (xs : List Entry) (e : Entry) :
    (ofEntries max? min? xs).add e = ofEntries max? min? (xs ++ [e]) := by
  obtain ⟨key, chunk⟩ := e
  simp only [add, ofEntries, KindTotals.ofKind_concat, List.length_append, List.length_singleton,
    List.map_append, List.map_singleton, List.sum_append, List.sum_singleton]
  cases chunk with
  | array a | block b | runs l => simp only [Chunk.kind, reduceCtorEq, if_true, if_false]

theorem foldl_add (ys xs : List Entry) :
    xs.foldl add (ofEntries max? min? ys) = ofEntries max? min? (ys ++ xs) := by
  induction xs generalizing ys with
  | nil => rw [List.foldl_nil, List.append_nil]
  | cons e xs ih => rw [List.foldl_cons, add_ofEntries, ih, List.append_assoc, List.singleton_append]

end Statistics

/-! Counters of a fixed width. -/

theorem Chunk.WellFormed.bytes_le {c : Chunk} (h : c.WellFormed) : c.bytes ≤ 131074 := by
  cases c with
  | array a =>
    have hlimit : a.size ≤ 4096 := h.2
    rw [bytes, arrayBytes]
    omega
  | block b =>
    rw [bytes, blockBytes]
    omega
  | runs l =>
    have hcount := RunList.Valid.runCount_le h
    rw [bytes, runBytes]
    omega

theorem Chunk.WellFormed.size_le {c : Chunk} (h : c.WellFormed) (hkind : c.kind = .array) :
    c.size ≤ 4096 := by
  cases c with
  | array a => exact h.2
  | block b | runs l => cases hkind

def Entry.Bounded (e : Entry) : Prop :=
  e.size ≤ 65536 ∧ e.chunk.bytes ≤ 131074 ∧ (e.chunk.kind = .array → e.size ≤ 4096)

theorem IntSet.WellFormed.bounded (hs : s.WellFormed) (he : e ∈ s.entries.toList) : e.Bounded :=
  ⟨(hs.valid.entry_size he).2, (hs.2 e he).2.1.bytes_le, (hs.2 e he).2.1.size_le⟩

namespace KindTotals

variable {kind : Kind} {f : Entry → Nat} {n : Nat}

theorem sum_map_le (h : ∀ e ∈ xs, f e ≤ n) : (xs.map f).sum ≤ n * xs.length := by
  have hsum := List.sum_le_card_nsmul (xs.map f) n fun x hx => by
    obtain ⟨e, he, rfl⟩ := List.mem_map.1 hx
    exact h e he
  rwa [List.length_map, nsmul_eq_mul, Nat.cast_id, Nat.mul_comm] at hsum

theorem entries_ofKind_le (kind : Kind) (xs : List Entry) :
    (ofKind kind xs).entries ≤ xs.length := List.length_filter_le _ _

theorem values_ofKind_le (h : ∀ e ∈ xs, e.chunk.kind = kind → e.size ≤ n) :
    (ofKind kind xs).values ≤ n * (ofKind kind xs).entries :=
  sum_map_le fun e he => h e (List.mem_filter.1 he).1 (of_decide_eq_true (List.mem_filter.1 he).2)

theorem bytes_ofKind_le (h : ∀ e ∈ xs, e.chunk.bytes ≤ n) :
    (ofKind kind xs).bytes ≤ n * (ofKind kind xs).entries :=
  sum_map_le fun e he => h e (List.mem_filter.1 he).1

def wrap (valueBits : Nat) (t : KindTotals) : KindTotals :=
  ⟨t.entries % 2 ^ 32, t.values % 2 ^ valueBits, t.bytes % 2 ^ 64⟩

theorem wrap_eq {t : KindTotals} (hentries : t.entries < 2 ^ 32) (hvalues : t.values < 2 ^ n)
    (hbytes : t.bytes < 2 ^ 64) : t.wrap n = t := by
  rw [wrap, Nat.mod_eq_of_lt hentries, Nat.mod_eq_of_lt hvalues, Nat.mod_eq_of_lt hbytes]

end KindTotals

namespace Statistics

/-- What the counters keep: those of values have 32 bits for arrays and 64 bits otherwise. -/
def wrap (t : Statistics) : Statistics :=
  { t with
    entries := t.entries % 2 ^ 32
    arrays := t.arrays.wrap 32
    runs := t.runs.wrap 64
    blocks := t.blocks.wrap 64
    size := t.size % 2 ^ 64 }

variable (max? min? : Option Nat)

theorem wrap_ofEntries (xs : List Entry) (hlength : xs.length ≤ 65536)
    (hxs : ∀ e ∈ xs, e.Bounded) :
    (ofEntries max? min? xs).wrap = ofEntries max? min? xs := by
  have hentries (kind : Kind) := KindTotals.entries_ofKind_le kind xs
  have hvalues (kind : Kind) : (KindTotals.ofKind kind xs).values ≤ _ :=
    KindTotals.values_ofKind_le fun e he _ => (hxs e he).1
  have harrays : (KindTotals.ofKind .array xs).values ≤ _ :=
    KindTotals.values_ofKind_le fun e he => (hxs e he).2.2
  have hbytes (kind : Kind) : (KindTotals.ofKind kind xs).bytes ≤ _ :=
    KindTotals.bytes_ofKind_le fun e he => (hxs e he).2.1
  have hsize := KindTotals.sum_map_le fun e he => (hxs e he).1
  have hwide (kind : Kind) : (KindTotals.ofKind kind xs).wrap 64 = .ofKind kind xs := by
    have hentries := hentries kind
    have hvalues := hvalues kind
    have hbytes := hbytes kind
    exact KindTotals.wrap_eq (by omega) (by omega) (by omega)
  have hnarrow : (KindTotals.ofKind .array xs).wrap 32 = .ofKind .array xs := by
    have hentries := hentries .array
    have hbytes := hbytes .array
    exact KindTotals.wrap_eq (by omega) (by omega) (by omega)
  simp only [wrap, ofEntries, hwide, hnarrow]
  rw [Nat.mod_eq_of_lt (by omega), Nat.mod_eq_of_lt (by omega)]

/-- As every part of the scan is bounded like the whole, no step of it loses anything. -/
theorem foldl_wrap (ys xs : List Entry) (hlength : (ys ++ xs).length ≤ 65536)
    (hall : ∀ e ∈ ys ++ xs, e.Bounded) :
    xs.foldl (fun t e => (t.add e).wrap) (ofEntries max? min? ys) =
      ofEntries max? min? (ys ++ xs) := by
  induction xs generalizing ys with
  | nil => rw [List.foldl_nil, List.append_nil]
  | cons e xs ih =>
    rw [List.append_cons] at hlength hall ⊢
    have hlength' : (ys ++ [e]).length ≤ 65536 := by
      rw [List.length_append] at hlength
      omega
    have hstep := wrap_ofEntries max? min? (ys ++ [e]) hlength'
      fun f hf => hall f (List.mem_append_left xs hf)
    rw [List.foldl_cons, add_ofEntries, hstep, ih _ hlength hall]

end Statistics

namespace IntSet

theorem statistics_eq (s : IntSet) :
    s.statistics = .ofEntries s.max? s.min? s.entries.toList := by
  rw [statistics, ← Array.foldl_toList]
  exact Statistics.foldl_add s.max? s.min? [] s.entries.toList

def statisticsInWords (s : IntSet) : Statistics :=
  s.entries.foldl (fun t e => (t.add e).wrap)
    ⟨0, ⟨0, 0, 0⟩, ⟨0, 0, 0⟩, ⟨0, 0, 0⟩, s.max?, s.min?, 0⟩

theorem WellFormed.statisticsInWords_eq (hs : s.WellFormed) :
    s.statisticsInWords = s.statistics := by
  rw [statistics_eq, statisticsInWords, ← Array.foldl_toList]
  exact Statistics.foldl_wrap s.max? s.min? [] s.entries.toList hs.valid.count_le
    fun e he => hs.bounded he

theorem size_eq_sum (s : IntSet) : s.size = (s.entries.toList.map Entry.size).sum := by
  rw [size, ← Array.foldl_toList, Words.foldl_add_eq_sum, Nat.zero_add]

/-- The statistics are those of the entries, kind by kind, and their totals are what the set reports
itself. The header that they call for makes up the written size, and no counter is cut. -/
theorem statistics_correct (hs : s.WellFormed) :
    let t := s.statistics
    (t.arrays = .ofKind .array s.entries.toList ∧ t.runs = .ofKind .runs s.entries.toList ∧
      t.blocks = .ofKind .block s.entries.toList) ∧
    (t.arrays.entries + t.runs.entries + t.blocks.entries = t.entries ∧
      t.entries = s.entries.size) ∧
    (t.arrays.values + t.runs.values + t.blocks.values = t.size ∧ t.size = s.size ∧
      s.size = s.toList.length) ∧
    (Header.ofSet s = ⟨t.entries, decide (0 < t.runs.entries)⟩ ∧
      (Header.ofSet s).bytes + t.arrays.bytes + t.runs.bytes + t.blocks.bytes = s.bytes) ∧
    (Least (· ∈ s) t.min? ∧ Greatest (· ∈ s) t.max?) ∧
    t.entries ≤ 65536 ∧ t.arrays.values ≤ 4096 * t.arrays.entries ∧ s.statisticsInWords = t := by
  obtain ⟨hentries, hvalues, hbytes⟩ := KindTotals.sum_ofKind s.entries.toList
  have hruns : 0 < (KindTotals.ofKind .runs s.entries.toList).entries ↔ .runs ∈ s.kinds :=
    KindTotals.entries_ofKind_pos
  have hheader := header_eq s
  have htotal := bytes_eq s
  rw [hs.statisticsInWords_eq, statistics_eq]
  refine ⟨⟨rfl, rfl, rfl⟩, ⟨hentries, Array.length_toList⟩,
    ⟨hvalues, (size_eq_sum s).symm, hs.valid.length_toList.symm⟩, ⟨?_, ?_⟩,
    ⟨hs.valid.min?_least, max?_greatest hs.denotes⟩, hs.valid.count_le, ?_, rfl⟩
  · simp only [Statistics.ofEntries, hruns, hheader, Array.length_toList]
  · simp only [Statistics.ofEntries, hheader]
    omega
  · exact KindTotals.values_ofKind_le fun e he => (hs.bounded he).2.2

theorem statistics_correct_mixed :
    let s : IntSet := ⟨#[⟨0, .array ⟨#[1, 2, 65535]⟩⟩, ⟨7, .runs ⟨#[⟨0, 65535⟩]⟩⟩]⟩
    s.WellFormed ∧ s.statistics =
        ⟨2, ⟨1, 3, 6⟩, ⟨1, 65536, 6⟩, ⟨0, 0, 0⟩, some 524287, some 1, 65539⟩ ∧
      Header.ofSet s = ⟨2, true⟩ ∧ (Header.ofSet s).bytes + 6 + 6 + 0 = s.bytes ∧
      (Least (· ∈ s) (some 1) ∧ Greatest (· ∈ s) (some 524287)) ∧
      s.statisticsInWords = s.statistics := by
  intro s
  have hs : s.WellFormed := by decide
  have hstatistics : s.statistics =
      ⟨2, ⟨1, 3, 6⟩, ⟨1, 65536, 6⟩, ⟨0, 0, 0⟩, some 524287, some 1, 65539⟩ := by cbv
  obtain ⟨-, -, -, ⟨hheader, hbytes⟩, hextremes, -, -, hwords⟩ := statistics_correct hs
  rw [hstatistics] at hheader hbytes hextremes
  exact ⟨hs, hstatistics, hheader, hbytes, hextremes, hwords⟩

end IntSet

end ChunkedSet
