import Mathlib.Data.List.Basic
import Mathlib.Data.Nat.Bitwise
import Mathlib.Tactic.Ring
import ChunkedSet.Codec.Bytes

/-!
# Numbers, words and flags as bytes

A string of bytes is the number that it writes down: strings of one length are told apart by
their numbers. Words of eight bytes and packed flags are both read off that number, a word as
its value and a flag as one of its binary digits.
-/

namespace ChunkedSet.Bytes

theorem toNat_ofNat (width n : Nat) : toNat (ofNat width n) = n % 256 ^ width := by
  induction width generalizing n with
  | zero => simp only [ofNat, toNat, Nat.pow_zero, Nat.mod_one]
  | succ width ih =>
    have hbyte : (UInt8.ofNat (n % 256)).toNat = n % 256 := by
      simp only [UInt8.toNat_ofNat', Nat.reducePow, Nat.mod_mod]
    rw [ofNat, toNat, hbyte, ih, Nat.pow_succ', Nat.mod_mul]

theorem toNat_lt (bs : List UInt8) : toNat bs < 256 ^ bs.length := by
  induction bs with
  | nil => exact Nat.one_pos
  | cons b rest ih =>
    have hb := b.toNat_lt
    rw [toNat, List.length_cons, Nat.pow_succ]
    omega

theorem toNat_inj {as bs : List UInt8} (hlength : as.length = bs.length)
    (h : toNat as = toNat bs) : as = bs := by
  induction as generalizing bs with
  | nil => exact (List.length_eq_zero_iff.1 hlength.symm).symm
  | cons a as ih =>
    cases bs with
    | nil => cases hlength
    | cons b bs =>
      rw [toNat, toNat] at h
      have ha := a.toNat_lt
      have hb := b.toNat_lt
      have hhead : a = b := UInt8.toNat_inj.1 (by omega)
      rw [hhead, ih (Nat.succ.inj hlength) (by omega)]

theorem toNat_ofNat_of_lt {width n : Nat} (h : n < 256 ^ width) : toNat (ofNat width n) = n := by
  rw [toNat_ofNat, Nat.mod_eq_of_lt h]

theorem ofNat_toNat (bs : List UInt8) : ofNat bs.length (toNat bs) = bs :=
  toNat_inj (length_ofNat _ _) (toNat_ofNat_of_lt (toNat_lt bs))

theorem eq_ofNat_iff {width n : Nat} {bs : List UInt8} (hlength : bs.length = width) :
    bs = ofNat width n ∧ n < 256 ^ width ↔ n = toNat bs := by
  constructor
  · intro h
    rw [h.1, toNat_ofNat_of_lt h.2]
  · intro h
    subst hlength h
    exact ⟨(ofNat_toNat bs).symm, toNat_lt bs⟩

theorem ofNat_mod (width n : Nat) : ofNat width (n % 256 ^ width) = ofNat width n := by
  refine toNat_inj ?_ ?_
  · rw [length_ofNat, length_ofNat]
  · rw [toNat_ofNat, toNat_ofNat, Nat.mod_mod]

theorem ofNat_add_pow (width n : Nat) : ofNat width (n + 256 ^ width) = ofNat width n := by
  rw [← ofNat_mod, Nat.add_mod_right, ofNat_mod]

theorem toNat_append (as bs : List UInt8) :
    toNat (as ++ bs) = toNat as + 256 ^ as.length * toNat bs := by
  induction as with
  | nil => simp [toNat]
  | cons a as ih =>
    rw [List.cons_append, toNat, ih, toNat, List.length_cons, Nat.pow_succ]
    ring

theorem ofNat_add (low high a : Nat) {n : Nat} (hn : n < 256 ^ low) :
    ofNat (low + high) (n + 256 ^ low * a) = ofNat low n ++ ofNat high a := by
  refine toNat_inj ?_ ?_
  · simp only [List.length_append, length_ofNat]
  · have hdiv : (n + 256 ^ low * a) / 256 ^ low = a := by
      rw [Nat.add_mul_div_left _ _ (Nat.pow_pos (by decide)), Nat.div_eq_of_lt hn, Nat.zero_add]
    have hmod : (n + 256 ^ low * a) % 256 ^ low = n := by
      rw [Nat.add_mul_mod_self_left, Nat.mod_eq_of_lt hn]
    rw [toNat_append, toNat_ofNat, toNat_ofNat, toNat_ofNat, length_ofNat, Nat.pow_add,
      Nat.mod_mul, hdiv, hmod, Nat.mod_eq_of_lt hn]

theorem exists_numbers (width n : Nat) {bs : List UInt8} (h : bs.length = width * n) :
    ∃ numbers : List Nat, numbers.length = n ∧ (∀ x ∈ numbers, x < 256 ^ width) ∧
      bs = numbers.flatMap (ofNat width) := by
  induction n generalizing bs with
  | zero => exact ⟨[], rfl, by simp, by simpa using h⟩
  | succ n ih =>
    rw [Nat.mul_succ] at h
    have hhead : (bs.take width).length = width := by
      rw [List.length_take]
      omega
    have htail : (bs.drop width).length = width * n := by
      rw [List.length_drop]
      omega
    obtain ⟨numbers, hlength, hlt, heq⟩ := ih htail
    obtain ⟨hfirst, hbound⟩ := (eq_ofNat_iff hhead).2 rfl
    refine ⟨toNat (bs.take width) :: numbers, by rw [List.length_cons, hlength], ?_, ?_⟩
    · intro x hx
      rcases List.mem_cons.1 hx with rfl | hx
      · exact hbound
      · exact hlt x hx
    · rw [List.flatMap_cons, ← hfirst, ← heq, List.take_append_drop]

theorem length_flatMap_ofNat (width : Nat) (numbers : List Nat) :
    (numbers.flatMap (ofNat width)).length = width * numbers.length := by
  induction numbers with
  | nil => rfl
  | cons x numbers ih =>
    rw [List.flatMap_cons, List.length_append, length_ofNat, ih, List.length_cons, Nat.mul_succ,
      Nat.add_comm]

/-! Words. -/

/-- The next byte of a word is put above the bytes read so far. -/
theorem toNat_snoc (n : Nat) (hn : n ≤ 7) {acc : UInt64} {bs : List UInt8}
    (hlength : bs.length = n) (h : acc.toNat = toNat bs) (b : UInt8) :
    (acc ||| b.toUInt64 <<< UInt64.ofNat (8 * n)).toNat = toNat (bs ++ [b]) := by
  subst hlength
  have hb := b.toNat_lt
  have hbase : 256 ^ bs.length = 2 ^ (8 * bs.length) := (Nat.pow_mul 2 8 bs.length).symm
  have hacc : acc.toNat < 2 ^ (8 * bs.length) := by
    rw [h, ← hbase]
    exact toNat_lt bs
  have hsmall : b.toNat * 2 ^ (8 * bs.length) < 2 ^ 64 :=
    calc b.toNat * 2 ^ (8 * bs.length) < 2 ^ 8 * 2 ^ (8 * bs.length) :=
          Nat.mul_lt_mul_of_pos_right hb (Nat.two_pow_pos _)
      _ = 2 ^ (8 + 8 * bs.length) := (Nat.pow_add 2 8 _).symm
      _ ≤ 2 ^ 64 := Nat.pow_le_pow_right (by decide) (by omega)
  have hshift : (b.toUInt64 <<< UInt64.ofNat (8 * bs.length)).toNat =
      2 ^ (8 * bs.length) * b.toNat := by
    have hmod : 8 * bs.length % 2 ^ 64 % 64 = 8 * bs.length := by omega
    rw [UInt64.toNat_shiftLeft, UInt8.toNat_toUInt64, UInt64.toNat_ofNat', hmod, Nat.shiftLeft_eq,
      Nat.mod_eq_of_lt hsmall, Nat.mul_comm]
  rw [UInt64.toNat_or, hshift, Nat.or_comm, ← Nat.two_pow_add_eq_or_of_lt hacc, toNat_append, h,
    hbase, toNat, toNat, Nat.mul_zero, Nat.add_zero, Nat.add_comm]

theorem toNat_toWord (b₀ b₁ b₂ b₃ b₄ b₅ b₆ b₇ : UInt8) :
    (toWord b₀ b₁ b₂ b₃ b₄ b₅ b₆ b₇).toNat = toNat [b₀, b₁, b₂, b₃, b₄, b₅, b₆, b₇] := by
  have h₀ : b₀.toUInt64.toNat = toNat [b₀] := UInt8.toNat_toUInt64 b₀
  have h₁ := toNat_snoc 1 (by decide) rfl h₀ b₁
  have h₂ := toNat_snoc 2 (by decide) rfl h₁ b₂
  have h₃ := toNat_snoc 3 (by decide) rfl h₂ b₃
  have h₄ := toNat_snoc 4 (by decide) rfl h₃ b₄
  have h₅ := toNat_snoc 5 (by decide) rfl h₄ b₅
  have h₆ := toNat_snoc 6 (by decide) rfl h₅ b₆
  exact toNat_snoc 7 (by decide) rfl h₆ b₇

theorem ofWord_eq_ofNat (w : UInt64) : ofWord w = ofNat 8 w.toNat := by
  have hbyte (k : Nat) (hk : k < 64) :
      (w >>> UInt64.ofNat k).toUInt8 = UInt8.ofNat (w.toNat / 2 ^ k % 256) := by
    have hmod : k % 2 ^ 64 % 64 = k := by omega
    refine UInt8.toNat_inj.1 ?_
    rw [UInt64.toNat_toUInt8, UInt64.toNat_shiftRight, UInt64.toNat_ofNat', hmod,
      Nat.shiftRight_eq_div_pow, UInt8.toNat_ofNat', Nat.mod_mod]
  have hlow : w.toUInt8 = UInt8.ofNat (w.toNat % 256) :=
    UInt8.toNat_inj.1 (by rw [UInt64.toNat_toUInt8, UInt8.toNat_ofNat', Nat.mod_mod])
  simp only [ofNat, Nat.div_div_eq_div_mul, Nat.reduceMul]
  rw [ofWord, hlow]
  refine congrArg₂ _ rfl ?_
  exact congrArg₂ _ (hbyte 8 (by decide)) <| congrArg₂ _ (hbyte 16 (by decide)) <|
    congrArg₂ _ (hbyte 24 (by decide)) <| congrArg₂ _ (hbyte 32 (by decide)) <|
    congrArg₂ _ (hbyte 40 (by decide)) <| congrArg₂ _ (hbyte 48 (by decide)) <|
    congrArg₂ _ (hbyte 56 (by decide)) rfl

theorem length_ofWord (w : UInt64) : (ofWord w).length = 8 := rfl

theorem length_flatMap_ofWord (list : List UInt64) :
    (list.flatMap ofWord).length = 8 * list.length := by
  induction list with
  | nil => rfl
  | cons w list ih =>
    rw [List.flatMap_cons, List.length_append, length_ofWord, ih, List.length_cons]
    omega

theorem toWord_eq_iff {b₀ b₁ b₂ b₃ b₄ b₅ b₆ b₇ : UInt8} {w : UInt64} :
    toWord b₀ b₁ b₂ b₃ b₄ b₅ b₆ b₇ = w ↔ [b₀, b₁, b₂, b₃, b₄, b₅, b₆, b₇] = ofWord w := by
  have hw : w.toNat < 256 ^ 8 := by
    have hlt := w.toNat_lt
    omega
  rw [← UInt64.toNat_inj, toNat_toWord, ofWord_eq_ofNat, eq_comm]
  exact (eq_ofNat_iff rfl).symm.trans (and_iff_left hw)

theorem exists_words (n : Nat) {bs : List UInt8} (h : bs.length = 8 * n) :
    ∃ ws : List UInt64, ws.length = n ∧ bs = ws.flatMap ofWord := by
  obtain ⟨numbers, hlength, hlt, rfl⟩ := exists_numbers 8 n h
  refine ⟨numbers.map UInt64.ofNat, by rw [List.length_map, hlength], ?_⟩
  rw [List.flatMap_map]
  refine List.flatMap_congr fun x hx => ?_
  rw [ofWord_eq_ofNat, UInt64.toNat_ofNat_of_lt' (hlt x hx)]

/-! Flags. -/

/-- The flag of index `i` in a string of bytes, past whose end all flags are down. -/
def flag (bs : List UInt8) (i : Nat) : Bool := (toNat bs).testBit i

theorem testBit_add_mul {b r : Nat} (hb : b < 256) (i : Nat) :
    (b + 256 * r).testBit i = if i < 8 then b.testBit i else r.testBit (i - 8) := by
  rw [Nat.add_comm]
  exact Nat.testBit_two_pow_mul_add r (i := 8) hb i

theorem flag_cons (b : UInt8) (rest : List UInt8) (i : Nat) :
    flag (b :: rest) i = if i < 8 then b.toNat.testBit i else flag rest (i - 8) :=
  testBit_add_mul b.toNat_lt i

theorem flag_nil (i : Nat) : flag [] i = false := Nat.zero_testBit i

theorem and_shiftLeft_ne_zero (b : UInt8) {i : Nat} (hi : i < 8) :
    (b &&& (1 <<< UInt8.ofNat i) != 0) = b.toNat.testBit i := by
  have hmod : i % 2 ^ 8 % 8 = i := by omega
  have hpow : 2 ^ i % 2 ^ 8 = 2 ^ i := Nat.mod_eq_of_lt (Nat.pow_lt_pow_right (by decide) hi)
  have hmask : (1 <<< UInt8.ofNat i : UInt8).toNat = 2 ^ i := by
    rw [UInt8.toNat_shiftLeft, UInt8.toNat_ofNat', hmod, UInt8.toNat_one, Nat.shiftLeft_eq,
      Nat.one_mul, hpow]
  have hzero : (b &&& (1 <<< UInt8.ofNat i) = 0) ↔ b.toNat &&& 2 ^ i = 0 := by
    rw [← UInt8.toNat_inj, UInt8.toNat_and, hmask, UInt8.toNat_zero]
  rw [Nat.and_two_pow] at hzero
  cases hbit : b.toNat.testBit i with
  | true =>
    rw [hbit] at hzero
    simpa using hzero
  | false =>
    rw [hbit] at hzero
    simpa using hzero

theorem bitAt_eq_flag (bs : List UInt8) (i : Nat) : bitAt bs.toArray i = flag bs i := by
  rw [bitAt, List.getElem?_toArray]
  induction bs generalizing i with
  | nil => simp [flag_nil]
  | cons b rest ih =>
    rw [flag_cons]
    by_cases hi : i < 8
    · rw [if_pos hi, Nat.div_eq_of_lt hi, List.getElem?_cons_zero, Nat.mod_eq_of_lt hi]
      exact and_shiftLeft_ne_zero b hi
    · obtain ⟨j, rfl⟩ := Nat.exists_eq_add_of_le' (Nat.le_of_not_lt hi)
      rw [if_neg hi, Nat.add_sub_cancel, ← ih, Nat.add_div_right j (by decide),
        List.getElem?_cons_succ, Nat.add_mod_right]

theorem testBit_packByte (bits : List Bool) {i : Nat} (hi : i < 8) :
    (packByte bits).toNat.testBit i = bits.getD i false := by
  induction bits generalizing i with
  | nil => simp [packByte]
  | cons bit bits ih =>
    have hstep : (packByte (bit :: bits)).toNat =
        (packByte bits).toNat <<< 1 % 2 ^ 8 ||| bit.toNat := by
      cases bit <;> exact UInt8.toNat_or _ _
    rw [hstep, Nat.testBit_or, Nat.testBit_mod_two_pow, decide_eq_true hi, Bool.true_and,
      Nat.testBit_shiftLeft]
    cases i with
    | zero => cases bit <;> rfl
    | succ i =>
      have hbit : bit.toNat.testBit (i + 1) = false := by
        cases bit <;> simp [Nat.testBit_succ]
      rw [hbit, Bool.or_false, decide_eq_true (Nat.le_add_left 1 i), Bool.true_and,
        Nat.add_sub_cancel, ih (by omega), List.getD_cons_succ]

theorem pack_eq_cons {bits : List Bool} (h : bits ≠ []) :
    pack bits = packByte (bits.take 8) :: pack (bits.drop 8) := by
  match bits with
  | [] => exact absurd rfl h
  | [_] | [_, _] | [_, _, _] | [_, _, _, _] | [_, _, _, _, _] | [_, _, _, _, _, _]
  | [_, _, _, _, _, _, _] | _ :: _ :: _ :: _ :: _ :: _ :: _ :: _ :: _ => rfl

theorem flag_pack (bits : List Bool) (i : Nat) : flag (pack bits) i = bits.getD i false := by
  by_cases hnil : bits = []
  · subst hnil
    exact flag_nil i
  · have hpos := List.length_pos_iff.2 hnil
    rw [pack_eq_cons hnil, flag_cons]
    by_cases hi : i < 8
    · rw [if_pos hi, testBit_packByte _ hi, List.getD_eq_getElem?_getD,
        List.getElem?_take_of_lt hi, List.getD_eq_getElem?_getD]
    · have hindex : 8 + (i - 8) = i := by omega
      rw [if_neg hi, flag_pack (bits.drop 8), List.getD_eq_getElem?_getD, List.getElem?_drop,
        hindex, List.getD_eq_getElem?_getD]
termination_by bits.length
decreasing_by
  rw [List.length_drop]
  omega

theorem length_pack (bits : List Bool) : (pack bits).length = (bits.length + 7) / 8 := by
  by_cases hnil : bits = []
  · subst hnil
    rfl
  · have hpos := List.length_pos_iff.2 hnil
    rw [pack_eq_cons hnil, List.length_cons, length_pack (bits.drop 8), List.length_drop]
    omega
termination_by bits.length
decreasing_by
  rw [List.length_drop]
  omega

end ChunkedSet.Bytes
