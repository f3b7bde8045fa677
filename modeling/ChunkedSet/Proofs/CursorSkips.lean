import ChunkedSet.Proofs.SetCursor

/-!
# Skips of cursors

A skip drops values from one end. It may use up the front, pass over untouched entries, and go on
into the back. Skips by a number count the values of the entries they pass, and skips to a bound
search for the entry of its key.
-/

namespace ChunkedSet.Cursor

variable {c : Cursor} {fs bs xs : List Nat} {es : List Entry} {e : Entry}

/-! Skipping values. -/

/-- The entries that are skipped whole, and what is left to skip in the one behind them. -/
theorem wholeEntries_spec (hes : ∀ e ∈ es, e.size = e.toList.length) (skip n : Nat) :
    ∃ front back m, es = front ++ back ∧ n = (listed front).length + m ∧
      wholeEntries es skip n = (skip + front.length, m) ∧ ∀ e ∈ back.head?, m < e.toList.length := by
  induction es generalizing skip n with
  | nil => exact ⟨[], [], n, rfl, by simp [listed], rfl, by simp⟩
  | cons e es ih =>
    have hsize := hes e List.mem_cons_self
    rw [wholeEntries]
    split_ifs with hcase
    · exact ⟨[], e :: es, n, rfl, by simp [listed], rfl, by simpa [← hsize] using hcase⟩
    · obtain ⟨front, back, m, rfl, hn, hwhole, hback⟩ :=
        ih (fun e he => hes e (List.mem_cons_of_mem _ he)) (skip + 1) (n - e.size)
      refine ⟨e :: front, back, m, rfl, ?_, ?_, hback⟩
      · simp only [listed, List.flatMap_cons, List.length_append] at hn ⊢
        omega
      · rw [hwhole, List.length_cons]
        congr 1
        omega

theorem getElem?_length_add (xs ys : List Nat) (n : Nat) : (xs ++ ys)[xs.length + n]? = ys[n]? := by
  rw [List.getElem?_append_right (Nat.le_add_right _ _), Nat.add_sub_cancel_left]

theorem drop_length_add (xs ys : List Nat) (n : Nat) :
    (xs ++ ys).drop (xs.length + n + 1) = ys.drop (n + 1) := by
  rw [Nat.add_assoc, List.drop_length_add_append]

theorem Splits.nthRest (h : c.Splits [] es bs) (n : Nat) :
    (c.nthRest n).1 = (listed es ++ bs)[n]? ∧
      (c.nthRest n).2.Holds ((listed es ++ bs).drop (n + 1)) := by
  have hstop := h.spans.stop_eq
  obtain ⟨front, back, m, rfl, rfl, hwhole, hback⟩ :=
    wholeEntries_spec (fun e he => h.entry_size he) 0 n
  have hdrop := h.dropEntries (n := front.length) (by simp)
  rw [List.drop_left] at hdrop
  have hlisted : listed (front ++ back) ++ bs = listed front ++ (listed back ++ bs) := by
    simp [listed]
  rw [hlisted, getElem?_length_add, drop_length_add, Cursor.nthRest, h.rest, hwhole, Nat.zero_add]
  dsimp only
  cases back with
  | nil =>
    have hend : c.stop = c.start + front.length := by simpa using hstop
    rw [← hend] at hdrop
    rw [← hend, if_neg (Nat.lt_irrefl _)]
    obtain ⟨_, entries, start, stop, _ | b⟩ := c
    · obtain rfl : bs = [] := h.back
      exact ⟨by simp [listed], _, _, _, hdrop, by simp [listed]⟩
    · have hb : b.Holds bs := h.back
      dsimp only
      split_ifs with hcase
      · exact ⟨(hb.nth m).1, _, _, _, hdrop.setBack rfl (hb.nth m).2 rfl, rfl⟩
      · rw [hb.size] at hcase
        refine ⟨?_, _, _, _, hdrop.closeBack, ?_⟩
        · simpa [listed] using hcase
        · simpa [listed] using Nat.le_succ_of_le (Nat.not_lt.1 hcase)
  | cons e back =>
    have hm := hback e rfl
    have hnth := (EntryCursor.holds_ofEntry (h.chunk_valid (by simp : e ∈ front ++ e :: back))).nth m
    have hparts : listed (e :: back) ++ bs = e.toList ++ (listed back ++ bs) := by simp [listed]
    rw [if_pos (by simp at hstop; omega), hdrop.getElem?_start, hparts,
      List.getElem?_append_left hm, List.drop_append_of_le_length hm]
    refine ⟨hnth.1, _, _, _, hdrop.openFront hnth.2 rfl, ?_⟩
    simp

theorem Holds.nth (h : c.Holds xs) (n : Nat) :
    (c.nth n).1 = xs[n]? ∧ (c.nth n).2.Holds (xs.drop (n + 1)) := by
  obtain ⟨fs, es, bs, h, rfl⟩ := h
  obtain ⟨_ | f, entries, start, stop, back⟩ := c
  · obtain rfl : fs = [] := h.front
    exact h.nthRest n
  · have hf : f.Holds fs := h.front
    rw [List.append_assoc, Cursor.nth]
    dsimp only
    split_ifs with hcase
    · rw [hf.size] at hcase
      have hset := h.setFront rfl (hf.nth n).2 rfl
      rw [List.getElem?_append_left hcase, List.drop_append_of_le_length hcase]
      exact ⟨(hf.nth n).1, _, _, _, hset, (List.append_assoc _ _ _).symm⟩
    · obtain ⟨m, rfl⟩ := Nat.exists_eq_add_of_le (Nat.not_lt.1 hcase)
      rw [Nat.add_sub_cancel_left, hf.size, getElem?_length_add, drop_length_add]
      exact h.closeFront.nthRest m

theorem length_listed_reverse (es : List Entry) :
    (listed es).length = (listed es.reverse).reverse.length := by
  simp [listed, List.length_flatMap, List.map_reverse, List.sum_reverse]

theorem Splits.nthBackRest (h : c.Splits fs es []) (n : Nat) :
    (c.nthBackRest n).1 = (fs ++ listed es).reverse[n]? ∧
      (c.nthBackRest n).2.Holds ((fs ++ listed es).reverse.drop (n + 1)).reverse := by
  have hstop := h.spans.stop_eq
  have hsizes : ∀ e ∈ es.reverse, e.size = e.toList.length := by
    intro e he
    exact h.entry_size (List.mem_reverse.1 he)
  obtain ⟨back, front, m, hes, rfl, hwhole, hfront⟩ := wholeEntries_spec hsizes 0 n
  obtain rfl : es = front.reverse ++ back.reverse := by
    rw [← List.reverse_append, ← hes, List.reverse_reverse]
  have htake := h.takeEntries (n := front.reverse.length) (by simp)
  rw [List.take_left] at htake
  have hlisted : (fs ++ listed (front.reverse ++ back.reverse)).reverse =
      (listed back.reverse).reverse ++ (fs ++ listed front.reverse).reverse := by
    simp [listed]
  rw [hlisted, length_listed_reverse, getElem?_length_add, drop_length_add, Cursor.nthBackRest, h.rest,
    ← length_listed_reverse, hwhole, Nat.zero_add]
  simp only [List.length_append, List.length_reverse] at hstop htake
  dsimp only
  cases front with
  | nil =>
    have hend : c.start + back.length = c.stop := by simpa using hstop.symm
    rw [hend, if_neg (Nat.lt_irrefl _)]
    obtain ⟨_ | f, entries, start, stop, _⟩ := c
    · obtain rfl : fs = [] := h.front
      exact ⟨by simp [listed], _, _, _, htake, by simp [listed]⟩
    · have hf : f.Holds fs := h.front
      dsimp only
      split_ifs with hcase
      · refine ⟨?_, _, _, _, htake.setFront rfl (hf.nthBack m).2 rfl, ?_⟩
        · simpa [listed] using (hf.nthBack m).1
        · simp [listed]
      · rw [hf.size] at hcase
        refine ⟨?_, _, _, _, htake.closeFront, ?_⟩
        · simpa [listed] using hcase
        · simpa [listed] using Nat.le_succ_of_le (Nat.not_lt.1 hcase)
  | cons e front =>
    have hm : m < e.toList.reverse.length := by simpa using hfront e rfl
    have hnth := (EntryCursor.holds_ofEntry (h.chunk_valid (by simp : e ∈ _ ++ _))).nthBack m
    have hparts : (fs ++ listed (e :: front).reverse).reverse =
        e.toList.reverse ++ (fs ++ listed front.reverse).reverse := by
      simp [listed]
    have hpred : c.stop - back.length = c.start + (e :: front).length := by omega
    rw [List.reverse_cons] at htake
    rw [if_pos (by simp at hstop; omega), hpred, htake.getElem?_stop, hparts,
      List.getElem?_append_left hm, List.drop_append_of_le_length hm]
    refine ⟨hnth.1, _, _, _, htake.openBack hnth.2 rfl, ?_⟩
    simp

theorem Holds.nthBack (h : c.Holds xs) (n : Nat) :
    (c.nthBack n).1 = xs.reverse[n]? ∧
      (c.nthBack n).2.Holds (xs.reverse.drop (n + 1)).reverse := by
  obtain ⟨fs, es, bs, h, rfl⟩ := h
  obtain ⟨front, entries, start, stop, _ | b⟩ := c
  · obtain rfl : bs = [] := h.back
    rw [List.append_nil]
    exact h.nthBackRest n
  · have hb : b.Holds bs := h.back
    rw [List.reverse_append, Cursor.nthBack]
    dsimp only
    split_ifs with hcase
    · rw [hb.size, ← List.length_reverse] at hcase
      have hset := h.setBack rfl (hb.nthBack n).2 rfl
      rw [List.getElem?_append_left hcase, List.drop_append_of_le_length hcase]
      exact ⟨(hb.nthBack n).1, _, _, _, hset, by simp⟩
    · obtain ⟨m, rfl⟩ := Nat.exists_eq_add_of_le (Nat.not_lt.1 hcase)
      rw [Nat.add_sub_cancel_left, hb.size, ← List.length_reverse, getElem?_length_add, drop_length_add]
      exact h.closeBack.nthBackRest m

/-! The keys of the values left. -/

theorem Splits.exists_entry {v : Nat} (h : c.Splits fs es bs) (hv : v ∈ listed es) :
    ∃ e ∈ es, e.key = keyOf v := by
  obtain ⟨e, he, hv⟩ := List.mem_flatMap.1 hv
  exact ⟨e, he, ((EntryCursor.holds_ofEntry (h.chunk_valid he)).keyOf_eq hv).symm⟩

theorem Splits.front_lt {f : EntryCursor} {v : Nat} (h : c.Splits fs es bs) (hf : c.front = some f)
    (hv : v ∈ listed es ++ bs) : f.key < keyOf v := by
  have hkeys := h.keys
  simp only [Cursor.keys, hf, Option.toList_some, List.map_cons, List.map_nil, List.cons_append,
    List.nil_append, List.pairwise_cons, List.mem_append, List.mem_map] at hkeys
  rcases List.mem_append.1 hv with hv | hv
  · exact hkeys.1 _ (Or.inl (h.exists_entry hv))
  · obtain ⟨b, hb, hkey⟩ := h.back.exists_key hv
    exact hkeys.1 _ (Or.inr ⟨b, by simpa using hb, hkey⟩)

theorem Splits.lt_back {b : EntryCursor} {v : Nat} (h : c.Splits fs es bs) (hb : c.back = some b)
    (hv : v ∈ fs ++ listed es) : keyOf v < b.key := by
  have hkeys := (List.pairwise_append.1 h.keys).2.2
  simp only [hb, Option.toList_some, List.map_cons, List.map_nil, List.mem_append, List.mem_map,
    List.mem_singleton, forall_eq] at hkeys
  rcases List.mem_append.1 hv with hv | hv
  · obtain ⟨f, hf, hkey⟩ := h.front.exists_key hv
    exact hkeys _ (Or.inl ⟨f, by simpa using hf, hkey⟩)
  · exact hkeys _ (Or.inr (h.exists_entry hv))

theorem Splits.entry_lt {v : Nat} (h : c.Splits fs (e :: es) bs) (hv : v ∈ listed es ++ bs) :
    e.key < keyOf v := by
  have hopen := h.openFront (EntryCursor.holds_ofEntry (h.chunk_valid List.mem_cons_self)) rfl
  exact hopen.front_lt rfl hv

theorem Splits.lt_entry {v : Nat} (h : c.Splits fs (es ++ [e]) bs) (hv : v ∈ fs ++ listed es) :
    keyOf v < e.key := by
  have hopen := h.openBack (EntryCursor.holds_ofEntry (h.chunk_valid (by simp))) rfl
  exact hopen.lt_back rfl hv

/-! Dropping the values below a bound. -/

theorem lt_of_keyOf_lt {u v : Nat} (h : keyOf u < keyOf v) : u < v := by
  simp only [keyOf] at h
  omega

theorem filter_ge_eq_self {v : Nat} (hxs : ∀ x ∈ xs, keyOf v < keyOf x) :
    xs.filter (v ≤ ·) = xs := by
  apply List.filter_eq_self.2
  intro x hx
  exact decide_eq_true (lt_of_keyOf_lt (hxs x hx)).le

theorem filter_ge_eq_nil {v : Nat} (hxs : ∀ x ∈ xs, keyOf x < keyOf v) :
    xs.filter (v ≤ ·) = [] := by
  apply List.filter_eq_nil_iff.2
  intro x hx
  simpa using lt_of_keyOf_lt (hxs x hx)

theorem filter_le_eq_self {v : Nat} (hxs : ∀ x ∈ xs, keyOf x < keyOf v) :
    xs.filter (· ≤ v) = xs := by
  apply List.filter_eq_self.2
  intro x hx
  exact decide_eq_true (lt_of_keyOf_lt (hxs x hx)).le

theorem filter_le_eq_nil {v : Nat} (hxs : ∀ x ∈ xs, keyOf v < keyOf x) :
    xs.filter (· ≤ v) = [] := by
  apply List.filter_eq_nil_iff.2
  intro x hx
  simpa using lt_of_keyOf_lt (hxs x hx)

theorem Splits.entries_sorted (h : c.Splits fs es bs) :
    c.entries.toList.Pairwise fun e e' => e.key < e'.key :=
  List.pairwise_map.1 h.valid.1

/-- The untouched entries with a property that only a front part of them has, and the others. -/
theorem Splits.partition (h : c.Splits fs es bs) {p : Entry → Bool}
    (hp : ∀ e e' : Entry, e.key < e'.key → p e' = true → p e = true) :
    partitionPointIn p c.entries c.start c.stop = c.start + (es.filter p).length ∧
      Splits { c with stop := c.start + (es.filter p).length } fs (es.filter p) bs ∧
      Splits { c with start := c.start + (es.filter p).length } fs (es.filter (!p ·)) bs ∧
      listed es = listed (es.filter p) ++ listed (es.filter (!p ·)) := by
  have hsorted := h.entries_sorted.sublist h.spans.sublist
  have hlength := List.length_filter_le p es
  have htake := h.takeEntries hlength
  have hdrop := h.dropEntries hlength
  rw [take_length_filter hsorted hp] at htake
  rw [drop_length_filter hsorted hp] at hdrop
  refine ⟨h.spans.partitionPointIn_eq h.entries_sorted hp, htake, hdrop, ?_⟩
  rw [listed, listed, listed, ← List.flatMap_append, filter_append_filter_not hsorted hp]

/-- The untouched entries below a key may be dropped, for they hold no value from there on. -/
theorem Splits.dropBelow (h : c.Splits fs es bs) (v : Nat) :
    ∃ es', partitionPointIn (·.key < keyOf v) c.entries c.start c.stop + es'.length = c.stop ∧
      Splits { c with start := partitionPointIn (·.key < keyOf v) c.entries c.start c.stop } fs es' bs ∧
      (listed es).filter (v ≤ ·) = (listed es').filter (v ≤ ·) ∧ ∀ e ∈ es', keyOf v ≤ e.key := by
  have hleading : ∀ e e' : Entry, e.key < e'.key → decide (e'.key < keyOf v) = true →
      decide (e.key < keyOf v) = true := by
    simp only [decide_eq_true_eq]
    omega
  obtain ⟨hpoint, hbelow, habove, hlisted⟩ := h.partition hleading
  rw [hpoint]
  refine ⟨_, habove.spans.stop_eq.symm, habove, ?_, fun e he => ?_⟩
  · have hnone : (listed (es.filter (·.key < keyOf v))).filter (v ≤ ·) = [] := by
      apply filter_ge_eq_nil
      intro x hx
      obtain ⟨e, he, hkey⟩ := hbelow.exists_entry hx
      rw [← hkey]
      simpa using (List.mem_filter.1 he).2
    rw [hlisted, List.filter_append, hnone, List.nil_append]
  · simpa using (List.mem_filter.1 he).2

theorem Splits.advanceRest (h : c.Splits [] es bs) (v : Nat) :
    (c.advanceRest (keyOf v) (positionOf v)).Holds ((listed es ++ bs).filter (v ≤ ·)) := by
  obtain ⟨es', hstop, hdrop, hlisted, hkeys⟩ := h.dropBelow v
  rw [List.filter_append, hlisted, Cursor.advanceRest]
  dsimp only
  cases es' with
  | nil =>
    rw [if_neg (by simpa using hstop.ge)]
    obtain ⟨front, entries, start, stop, _ | b⟩ := c
    · obtain rfl : bs = [] := h.back
      exact ⟨_, _, _, hdrop, rfl⟩
    · have hb : b.Holds bs := h.back
      dsimp only
      split_ifs with hlt heq
      · have hbs : bs.filter (v ≤ ·) = bs := filter_ge_eq_self fun x hx => by rwa [hb.keyOf_eq hx]
        rw [hbs]
        exact ⟨_, _, _, hdrop, rfl⟩
      · exact ⟨_, _, _, hdrop.setBack rfl (hb.advanceTo heq) rfl, rfl⟩
      · have hgt : b.key < keyOf v := by omega
        have hbs : bs.filter (v ≤ ·) = [] := filter_ge_eq_nil fun x hx => by rwa [hb.keyOf_eq hx]
        rw [hbs]
        exact ⟨_, _, _, hdrop.closeBack, rfl⟩
  | cons e es' =>
    have hle := hkeys e List.mem_cons_self
    have hes : (listed es').filter (v ≤ ·) = listed es' := by
      apply filter_ge_eq_self
      intro x hx
      exact hle.trans_lt (hdrop.entry_lt (List.mem_append_left _ hx))
    have hbs : bs.filter (v ≤ ·) = bs := by
      apply filter_ge_eq_self
      intro x hx
      exact hle.trans_lt (hdrop.entry_lt (List.mem_append_right _ hx))
    have he := EntryCursor.holds_ofEntry (hdrop.chunk_valid List.mem_cons_self)
    rw [listed, List.flatMap_cons, List.filter_append, ← listed, hes, hbs, if_pos (by simp at hstop; omega),
      hdrop.getElem?_start]
    dsimp only
    split_ifs with hcase
    · exact ⟨_, _, _, hdrop.openFront (he.advanceTo hcase.symm) rfl, rfl⟩
    · have hlt : keyOf v < e.key := lt_of_le_of_ne hle (Ne.symm hcase)
      have hself : e.toList.filter (v ≤ ·) = e.toList :=
        filter_ge_eq_self fun x hx => by rwa [he.keyOf_eq hx]
      rw [hself]
      exact ⟨_, _, _, hdrop, by simp [listed]⟩

theorem Holds.advanceTo (h : c.Holds xs) (v : Nat) : (c.advanceTo v).Holds (xs.filter (v ≤ ·)) := by
  obtain ⟨fs, es, bs, h, rfl⟩ := h
  obtain ⟨_ | f, entries, start, stop, back⟩ := c
  · obtain rfl : fs = [] := h.front
    exact h.advanceRest v
  · have hf : f.Holds fs := h.front
    rw [List.append_assoc, List.filter_append, Cursor.advanceTo]
    dsimp only
    split_ifs with hlt heq
    · have hfs : fs.filter (v ≤ ·) = fs := filter_ge_eq_self fun x hx => by rwa [hf.keyOf_eq hx]
      have hrest := filter_ge_eq_self fun x hx => hlt.trans (h.front_lt rfl hx)
      rw [hfs, hrest, ← List.append_assoc]
      exact ⟨_, _, _, h, rfl⟩
    · have hrest := filter_ge_eq_self fun x hx => heq.trans_lt (h.front_lt rfl hx)
      rw [hrest, ← List.append_assoc]
      exact ⟨_, _, _, h.setFront rfl (hf.advanceTo heq) rfl, rfl⟩
    · have hgt : f.key < keyOf v := by omega
      have hfs : fs.filter (v ≤ ·) = [] := filter_ge_eq_nil fun x hx => by rwa [hf.keyOf_eq hx]
      rw [hfs, List.nil_append]
      exact h.closeFront.advanceRest v

/-! Dropping the values above a bound. -/

theorem Splits.dropAbove (h : c.Splits fs es bs) (v : Nat) :
    ∃ es', partitionPointIn (·.key ≤ keyOf v) c.entries c.start c.stop = c.start + es'.length ∧
      Splits { c with stop := partitionPointIn (·.key ≤ keyOf v) c.entries c.start c.stop } fs es' bs ∧
      (listed es).filter (· ≤ v) = (listed es').filter (· ≤ v) ∧ ∀ e ∈ es', e.key ≤ keyOf v := by
  have hleading : ∀ e e' : Entry, e.key < e'.key → decide (e'.key ≤ keyOf v) = true →
      decide (e.key ≤ keyOf v) = true := by
    simp only [decide_eq_true_eq]
    omega
  obtain ⟨hpoint, hbelow, habove, hlisted⟩ := h.partition hleading
  rw [hpoint]
  refine ⟨_, rfl, hbelow, ?_, fun e he => ?_⟩
  · have hnone : (listed (es.filter fun e => !decide (e.key ≤ keyOf v))).filter (· ≤ v) = [] := by
      apply filter_le_eq_nil
      intro x hx
      obtain ⟨e, he, hkey⟩ := habove.exists_entry hx
      rw [← hkey]
      simpa using (List.mem_filter.1 he).2
    rw [hlisted, List.filter_append, hnone, List.append_nil]
  · simpa using (List.mem_filter.1 he).2

theorem Splits.advanceBackRest (h : c.Splits fs es []) (v : Nat) :
    (c.advanceBackRest (keyOf v) (positionOf v)).Holds ((fs ++ listed es).filter (· ≤ v)) := by
  obtain ⟨es', hstop, htake, hlisted, hkeys⟩ := h.dropAbove v
  rw [List.filter_append, hlisted, Cursor.advanceBackRest]
  dsimp only
  rcases List.eq_nil_or_concat es' with rfl | ⟨es', e, rfl⟩
  · rw [if_neg (by simpa using hstop.le)]
    obtain ⟨_ | f, entries, start, stop, back⟩ := c
    · obtain rfl : fs = [] := h.front
      exact ⟨_, _, _, htake, rfl⟩
    · have hf : f.Holds fs := h.front
      dsimp only
      split_ifs with hlt heq
      · have hfs : fs.filter (· ≤ v) = fs := filter_le_eq_self fun x hx => by rwa [hf.keyOf_eq hx]
        rw [hfs]
        exact ⟨_, _, _, htake, by simp [listed]⟩
      · exact ⟨_, _, _, htake.setFront rfl (hf.advanceBackTo heq) rfl, by simp [listed]⟩
      · have hgt : keyOf v < f.key := by omega
        have hfs : fs.filter (· ≤ v) = [] := filter_le_eq_nil fun x hx => by rwa [hf.keyOf_eq hx]
        rw [hfs]
        exact ⟨_, _, _, htake.closeFront, by simp [listed]⟩
  · rw [List.concat_eq_append] at *
    have hle := hkeys e (by simp)
    have hes : (listed es').filter (· ≤ v) = listed es' := by
      apply filter_le_eq_self
      intro x hx
      exact (htake.lt_entry (List.mem_append_right _ hx)).trans_le hle
    have hfs : fs.filter (· ≤ v) = fs := by
      apply filter_le_eq_self
      intro x hx
      exact (htake.lt_entry (List.mem_append_left _ hx)).trans_le hle
    have he := EntryCursor.holds_ofEntry (htake.chunk_valid (by simp : e ∈ es' ++ [e]))
    have hparts : listed (es' ++ [e]) = listed es' ++ e.toList := by simp [listed]
    rw [hparts, List.filter_append, hes, hfs, if_pos (by simp at hstop; omega), htake.getElem?_stop]
    dsimp only
    split_ifs with hcase
    · exact ⟨_, _, _, htake.openBack (he.advanceBackTo hcase.symm) rfl, (List.append_assoc _ _ _).symm⟩
    · have hlt : e.key < keyOf v := lt_of_le_of_ne hle hcase
      have hself : e.toList.filter (· ≤ v) = e.toList :=
        filter_le_eq_self fun x hx => by rwa [he.keyOf_eq hx]
      rw [hself]
      exact ⟨_, _, _, htake, by simp [listed]⟩

theorem Holds.advanceBackTo (h : c.Holds xs) (v : Nat) :
    (c.advanceBackTo v).Holds (xs.filter (· ≤ v)) := by
  obtain ⟨fs, es, bs, h, rfl⟩ := h
  obtain ⟨front, entries, start, stop, _ | b⟩ := c
  · obtain rfl : bs = [] := h.back
    rw [List.append_nil]
    exact h.advanceBackRest v
  · have hb : b.Holds bs := h.back
    rw [List.filter_append, Cursor.advanceBackTo]
    dsimp only
    split_ifs with hlt heq
    · have hbs : bs.filter (· ≤ v) = bs := filter_le_eq_self fun x hx => by rwa [hb.keyOf_eq hx]
      have hrest := filter_le_eq_self fun x hx => (h.lt_back rfl hx).trans hlt
      rw [hbs, hrest]
      exact ⟨_, _, _, h, rfl⟩
    · have hrest := filter_le_eq_self fun x hx => (h.lt_back rfl hx).trans_eq heq.symm
      rw [hrest]
      exact ⟨_, _, _, h.setBack rfl (hb.advanceBackTo heq) rfl, rfl⟩
    · have hgt : keyOf v < b.key := by omega
      have hbs : bs.filter (· ≤ v) = [] := filter_le_eq_nil fun x hx => by rwa [hb.keyOf_eq hx]
      rw [hbs, List.append_nil]
      exact h.closeBack.advanceBackRest v

end ChunkedSet.Cursor
