import ChunkedSet.Codec.Layout
import ChunkedSet.Proofs.Bytes
import ChunkedSet.Proofs.SetDenotes

/-!
# What written bytes say

An image is the content of a written set field by field, together with the bytes that write it
down. A legal image respects every rule of the format, and the set that it describes is well
formed.
-/

namespace ChunkedSet

/-- The content of a written chunk. A run is its first position and its size less one. -/
inductive Payload
  | runs (pairs : List (Nat × Nat))
  | array (values : List Nat)
  | words (list : List UInt64)

def Run.ofPair (r : Nat × Nat) : Run := ⟨r.1, r.1 + r.2⟩

namespace Payload

def pairBytes (r : Nat × Nat) : List UInt8 := Bytes.ofNat 2 r.1 ++ Bytes.ofNat 2 r.2

def bytes : Payload → List UInt8
  | runs pairs => Bytes.ofNat 2 pairs.length ++ pairs.flatMap pairBytes
  | array values => values.flatMap (Bytes.ofNat 2)
  | words list => list.flatMap Bytes.ofWord

def chunk : Payload → Chunk
  | runs pairs => .runs ⟨(pairs.map Run.ofPair).toArray⟩
  | array values => .array ⟨values.toArray⟩
  | words list => .block ⟨(list.map Word.popcount).sum, Words.ofList list⟩

def Legal (flagged : Bool) (declared : Nat) : Payload → Prop
  | runs pairs =>
    flagged = true ∧ 1 ≤ pairs.length ∧ pairs.length ≤ 32768 ∧
      (∀ r ∈ pairs, r.1 + r.2 ≤ 65535) ∧ pairs.IsChain (fun r s => r.1 + r.2 + 2 ≤ s.1) ∧
      (pairs.map fun r => r.2 + 1).sum = declared
  | array values =>
    flagged = false ∧ declared ≤ 4096 ∧ values.length = declared ∧ (∀ v ∈ values, v < 65536) ∧
      values.Pairwise (· < ·)
  | words list =>
    flagged = false ∧ 4096 < declared ∧ list.length = 1024 ∧
      (list.map Word.popcount).sum = declared

def Shaped (flagged : Bool) (declared : Nat) : Payload → Prop
  | runs pairs =>
    flagged = true ∧ 1 ≤ pairs.length ∧ pairs.length ≤ 32768 ∧ ∀ r ∈ pairs, r.1 + r.2 ≤ 65535
  | array values => flagged = false ∧ declared ≤ 4096 ∧ values.length = declared
  | words list => flagged = false ∧ 4096 < declared ∧ list.length = 1024

instance (flagged : Bool) (declared : Nat) : (p : Payload) → Decidable (p.Legal flagged declared)
  | runs _ => inferInstanceAs (Decidable (_ ∧ _))
  | array _ => inferInstanceAs (Decidable (_ ∧ _))
  | words _ => inferInstanceAs (Decidable (_ ∧ _))

end Payload

structure Item where
  key : Nat
  declared : Nat
  payload : Payload

namespace Item

def description (i : Item) : List UInt8 := Bytes.ofNat 2 i.key ++ Bytes.ofNat 2 (i.declared - 1)

theorem length_description (i : Item) : i.description.length = 4 := by
  rw [description, List.length_append, Bytes.length_ofNat, Bytes.length_ofNat]

theorem length_descriptions (items : List Item) :
    (items.flatMap Item.description).length = 4 * items.length := by
  induction items with
  | nil => rfl
  | cons i items ih =>
    rw [List.flatMap_cons, List.length_append, Item.length_description, ih, List.length_cons]
    omega

def entry (i : Item) : Entry := ⟨i.key, i.payload.chunk⟩

end Item

/-- The content of a written set. The flag bytes are there if its cookie is the one for runs. -/
structure Image where
  flags : Option (List UInt8)
  items : List Item
  offsets : List Nat

namespace Image

def header (m : Image) : List UInt8 :=
  match m.flags with
  | none => Bytes.ofNat 4 12346 ++ Bytes.ofNat 4 m.items.length
  | some flags => Bytes.ofNat 2 12347 ++ Bytes.ofNat 2 (m.items.length - 1) ++ flags

def bytes (m : Image) : List UInt8 :=
  m.header ++ m.items.flatMap Item.description ++ m.offsets.flatMap (Bytes.ofNat 4) ++
    m.items.flatMap (·.payload.bytes)

def toSet (m : Image) : IntSet := ⟨(m.items.map Item.entry).toArray⟩

def flagged (m : Image) (index : Nat) : Bool := m.flags.any (Bytes.flag · index)

structure Legal (m : Image) : Prop where
  count_le : m.items.length ≤ 65536
  flags : ∀ bs ∈ m.flags, 1 ≤ m.items.length ∧ bs.length = (m.items.length + 7) / 8
  description : ∀ i ∈ m.items, i.key < 65536 ∧ 1 ≤ i.declared ∧ i.declared ≤ 65536
  keys : (m.items.map Item.key).Pairwise (· < ·)
  offsets : m.offsets.length =
    if m.flags.isNone ∨ 4 ≤ m.items.length then m.items.length else 0
  offset_lt : ∀ offset ∈ m.offsets, offset < 4294967296
  payload : ∀ (index : Nat) (i : Item), m.items[index]? = some i →
    i.payload.Legal (m.flagged index) i.declared

end Image

theorem Payload.length_flatMap_pairBytes (pairs : List (Nat × Nat)) :
    (pairs.flatMap pairBytes).length = 4 * pairs.length := by
  induction pairs with
  | nil => rfl
  | cons r pairs ih =>
    rw [List.flatMap_cons, List.length_append, ih, pairBytes, List.length_append,
      Bytes.length_ofNat, Bytes.length_ofNat, List.length_cons]
    omega

/-! What is legal is well formed. -/

theorem apart_iff_isChain {pairs : List (Nat × Nat)} :
    RunList.Apart (pairs.map Run.ofPair) ↔
      pairs.IsChain (fun r s => r.1 + r.2 + 2 ≤ s.1) := by
  have htrans : ∀ {r s t : Nat × Nat}, r.1 + r.2 + 2 ≤ s.1 → s.1 + s.2 + 2 ≤ t.1 →
      r.1 + r.2 + 2 ≤ t.1 := by omega
  have : IsTrans (Nat × Nat) (fun r s => r.1 + r.2 + 2 ≤ s.1) := ⟨fun _ _ _ => htrans⟩
  rw [RunList.Apart, List.pairwise_map, List.isChain_iff_pairwise]
  exact Iff.rfl

theorem size_ofPairs (pairs : List (Nat × Nat)) :
    RunList.size ⟨(pairs.map Run.ofPair).toArray⟩ =
      (pairs.map fun r => r.2 + 1).sum := by
  rw [RunList.size_eq_sum, RunList.toList, List.map_map]
  refine congrArg List.sum (List.map_congr_left fun r _ => ?_)
  rw [Function.comp_apply, Run.ofPair, Run.size, Nat.add_sub_cancel_left]

namespace Payload.Legal

variable {flagged : Bool} {declared : Nat} {p : Payload}

theorem wellFormed (h : p.Legal flagged declared) : p.chunk.WellFormed := by
  cases p with
  | runs pairs =>
    obtain ⟨-, -, -, hlast, hchain, -⟩ := h
    refine ⟨apart_iff_isChain.2 hchain, fun r hr => ?_⟩
    obtain ⟨pair, hpair, rfl⟩ := List.mem_map.1 hr
    exact ⟨Nat.le_add_right _ _, Nat.lt_succ_of_le (hlast pair hpair)⟩
  | array values =>
    obtain ⟨-, hle, hlength, hlt, hsorted⟩ := h
    rw [← hlength] at hle
    exact ⟨⟨hsorted, hlt⟩, hle⟩
  | words list =>
    obtain ⟨-, hlt, hlength, hsum⟩ := h
    have hvalid : (list.map Word.popcount).sum = (Words.ofList list).popcount := by
      rw [Words.popcount_eq_sum, Words.toList_ofList hlength]
    rw [← hsum] at hlt
    exact ⟨hvalid, hlt⟩

theorem size_eq (h : p.Legal flagged declared) : p.chunk.size = declared := by
  cases p with
  | runs pairs =>
    obtain ⟨-, -, -, -, -, hsum⟩ := h
    rw [← hsum]
    exact size_ofPairs pairs
  | array values => exact h.2.2.1
  | words list => exact h.2.2.2

theorem isEmpty_eq_false (h : p.Legal flagged declared) (hpos : 1 ≤ declared) :
    p.chunk.isEmpty = false := by
  obtain ⟨S, hS⟩ := h.wellFormed.valid.denotes
  refine hS.isEmpty_eq_false (Finset.card_pos.1 ?_)
  rw [← hS.size, h.size_eq]
  exact hpos

end Payload.Legal

theorem Image.Legal.wellFormed {m : Image} (h : m.Legal) : m.toSet.WellFormed := by
  refine ⟨?_, fun e he => ?_⟩
  · rw [IntSet.keys, Image.toSet, List.map_map]
    exact h.keys
  · obtain ⟨i, hi, rfl⟩ := List.mem_map.1 he
    obtain ⟨hkey, hpos, -⟩ := h.description i hi
    obtain ⟨index, hindex⟩ := List.mem_iff_getElem?.1 hi
    have hlegal := h.payload index i hindex
    exact ⟨hkey, hlegal.wellFormed, hlegal.isEmpty_eq_false hpos⟩

end ChunkedSet
