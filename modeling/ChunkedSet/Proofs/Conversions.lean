import ChunkedSet.Proofs.Canonical

/-!
# Conversions between the representations

Along any path of conversions a chunk keeps its positions and its number of runs, and what it
becomes depends on the last representation alone. The number of runs is counted in each of the
three representations, before a conversion to runs and after it, and all counts agree.
-/

namespace ChunkedSet.Chunk

variable {c d : Chunk} {S : Finset Nat} {kind : Kind}

def convert (c : Chunk) : Kind → Chunk
  | .array => c.toArray
  | .block => c.toBlock
  | .runs => c.toRuns

structure Converted (c d : Chunk) : Prop where
  valid : d.Valid
  mem : ∀ p, p ∈ d ↔ p ∈ c
  listed : d.toList = c.toList
  size : d.size = c.size
  runCount : d.runCount = c.runCount

theorem Denotes.converted (hc : c.Denotes S) (hd : d.Denotes S) : c.Converted d where
  valid := hd.valid
  mem p := by rw [hd.2 p, hc.2 p]
  listed := by rw [hd.toList_eq_sort, hc.toList_eq_sort]
  size := by rw [hd.size, hc.size]
  runCount := by rw [hd.runCount, hc.runCount]

theorem convert_denotes (h : c.Denotes S) (kind : Kind) : (c.convert kind).Denotes S := by
  cases kind with
  | array => exact toArray_denotes h
  | block => exact toBlock_denotes h
  | runs => exact toRuns_denotes h

theorem kind_convert (c : Chunk) (kind : Kind) : (c.convert kind).kind = kind := by
  cases kind <;> cases c <;> rfl

theorem convert_kind (c : Chunk) : c.convert c.kind = c := by
  cases c <;> rfl

theorem foldl_convert_denotes (h : c.Denotes S) (path : List Kind) :
    (path.foldl convert c).Denotes S := by
  induction path generalizing c with
  | nil => exact h
  | cons kind path ih => exact ih (convert_denotes h kind)

theorem convert_foldl (h : c.Denotes S) (path : List Kind) (kind : Kind) :
    (path.foldl convert c).convert kind = c.convert kind :=
  (convert_denotes (foldl_convert_denotes h path) kind).eq_of_kind (convert_denotes h kind)
    (by rw [kind_convert, kind_convert])

/-- Conversions lose nothing, and the number of runs that is counted before a conversion is the
number that comes out of it. -/
theorem conversions_keep_content (hc : c.Valid) :
    (∀ path : List Kind, c.Converted (path.foldl convert c) ∧
      (path.foldl convert c).convert c.kind = c ∧
      ∀ kind, (path.foldl convert c).convert kind = c.convert kind) ∧
    ∃ a b l, c.convert .array = .array a ∧ c.convert .block = .block b ∧ c.convert .runs = .runs l ∧
      a.runCount = c.runCount ∧ b.words.runCount = c.runCount ∧ l.runs.size = c.runCount ∧
      c.runCount = (starts c.support).card := by
  obtain ⟨S, hS⟩ := hc.denotes
  refine ⟨fun path => ⟨hS.converted (foldl_convert_denotes hS path), ?_, convert_foldl hS path⟩, ?_⟩
  · rw [convert_foldl hS, convert_kind]
  · have hcount : ∀ kind, (c.convert kind).runCount = c.runCount := fun kind =>
      (hS.converted (convert_denotes hS kind)).runCount
    have hruns : c.runCount = (starts c.support).card := by rw [hS.runCount, hS.support_eq]
    obtain ⟨a, ha⟩ : ∃ a, c.convert .array = .array a := by cases c <;> exact ⟨_, rfl⟩
    obtain ⟨l, hl⟩ : ∃ l, c.convert .runs = .runs l := by cases c <;> exact ⟨_, rfl⟩
    refine ⟨a, c.toBits, l, ha, rfl, hl, ?_, hcount .block, ?_, hruns⟩
    · rw [← hcount .array, ha, runCount]
    · rw [← hcount .runs, hl, runCount, RunList.runCount]

/-- A run across the bound of a word is found as one run among the words. -/
theorem conversions_keep_content_across_words :
    let c : Chunk := .runs ⟨#[⟨62, 65⟩, ⟨70, 70⟩]⟩
    c.Valid ∧ c.toBlock.toArray = .array ⟨#[62, 63, 64, 65, 70]⟩ ∧
      c.toArray.toBlock.toRuns = c ∧ c.toBlock.runCount = 2 ∧ c.toArray.runCount = 2 := by
  intro c
  have hvalid : c.Valid := by decide
  have hlisted : c.toArray = .array ⟨#[62, 63, 64, 65, 70]⟩ := by cbv
  obtain ⟨hpath, -⟩ := conversions_keep_content hvalid
  refine ⟨hvalid, ?_, (hpath [.array, .block]).2.1, (hpath [.block]).1.runCount,
    (hpath [.array]).1.runCount⟩
  rw [← hlisted]
  exact (hpath [.block]).2.2 .array

end ChunkedSet.Chunk
