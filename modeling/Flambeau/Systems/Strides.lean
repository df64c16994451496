import Flambeau.Systems.Spans

namespace Flambeau.Systems

/-- The pieces of one size at these numbers, one after the other. -/
def pieces (size : Nat) (xs : List α) (idxs : List Nat) : List α :=
  idxs.flatMap fun b => (xs.drop (b * size)).take size

@[simp] theorem pieces_nil (size : Nat) (xs : List α) : pieces size xs [] = [] := rfl

theorem pieces_flatMap (size : Nat) (xs : List α) (is : List γ) (f : γ → List Nat) :
    pieces size xs (is.flatMap f) = is.flatMap fun i => pieces size xs (f i) := by
  unfold pieces
  exact List.flatMap_assoc

/-- Pieces that follow one another are one range. -/
theorem pieces_span (size : Nat) (xs : List α) (lo hi : Nat) :
    pieces size xs (span lo hi) = (xs.drop (lo * size)).take ((hi - lo) * size) := by
  unfold span
  generalize hi - lo = n
  induction n generalizing lo with
  | zero => simp
  | succ n ih =>
    have hhead : pieces size xs (List.range' lo (n + 1)) =
        (xs.drop (lo * size)).take size ++ pieces size xs (List.range' (lo + 1) n) := by
      rw [List.range'_succ]
      rfl
    rw [hhead, ih, Nat.succ_mul, Nat.succ_mul, Nat.add_comm (n * size) size, List.take_add, List.drop_drop]

/-- Pieces that are all there have their full size. -/
theorem length_pieces {size : Nat} {xs : List α} {is : List Nat} (h : ∀ i ∈ is, (i + 1) * size ≤ xs.length) :
    (pieces size xs is).length = is.length * size := by
  induction is with
  | nil => simp
  | cons i is ih =>
    have hfits := h i List.mem_cons_self
    have htail := ih fun j hj => h j (List.mem_cons_of_mem _ hj)
    have hcons : pieces size xs (i :: is) = (xs.drop (i * size)).take size ++ pieces size xs is := rfl
    rw [Nat.succ_mul] at hfits
    rw [hcons, List.length_append, htail, List.length_take, List.length_drop, List.length_cons, Nat.succ_mul]
    omega

theorem filter_span (hlo : lo ≤ a) (hmid : a ≤ b) (hhi : b ≤ hi) :
    (span lo hi).filter (fun t => decide (a ≤ t ∧ t < b)) = span a b := by
  have hbefore : (span lo a).filter (fun t => decide (a ≤ t ∧ t < b)) = [] := by
    refine List.filter_eq_nil_iff.mpr fun t ht => ?_
    have hmem := mem_span.mp ht
    simp only [decide_eq_true_eq]
    omega
  have hbehind : (span b hi).filter (fun t => decide (a ≤ t ∧ t < b)) = [] := by
    refine List.filter_eq_nil_iff.mpr fun t ht => ?_
    have hmem := mem_span.mp ht
    simp only [decide_eq_true_eq]
    omega
  have hinside : (span a b).filter (fun t => decide (a ≤ t ∧ t < b)) = span a b :=
    List.filter_eq_self.mpr fun t ht => decide_eq_true (mem_span.mp ht)
  rw [← span_append hlo (Nat.le_trans hmid hhi), ← span_append hmid hhi, List.filter_append, List.filter_append,
    hbefore, hinside, hbehind, List.nil_append, List.append_nil]

/-- The cells of the rows from `lo` to below `hi`, each of `m` cells. -/
theorem rows_span (lo hi m : Nat) :
    ((span lo hi).flatMap fun i => span (i * m) ((i + 1) * m)) = span (lo * m) (hi * m) := by
  rcases Nat.lt_or_ge hi lo with hlt | hle
  · rw [span_empty (Nat.le_of_lt hlt), span_empty (Nat.mul_le_mul_right m (Nat.le_of_lt hlt))]
    rfl
  · obtain ⟨n, rfl⟩ := Nat.exists_eq_add_of_le hle
    induction n with
    | zero => rw [Nat.add_zero, span_empty (Nat.le_refl _), span_empty (Nat.le_refl _)]; rfl
    | succ n ih =>
      have hlast : span (lo + n) (lo + (n + 1)) = [lo + n] := span_one (lo + n)
      have hgrow : (lo + n) * m ≤ (lo + n + 1) * m := Nat.mul_le_mul_right m (Nat.le_succ _)
      have hsplit : span lo (lo + (n + 1)) = span lo (lo + n) ++ span (lo + n) (lo + (n + 1)) :=
        (span_append (Nat.le_add_right lo n) (Nat.le_succ (lo + n))).symm
      rw [hsplit, List.flatMap_append, ih (Nat.le_add_right lo n), hlast, List.flatMap_cons, List.flatMap_nil,
        List.append_nil, span_append (Nat.mul_le_mul_right m (Nat.le_add_right lo n)) hgrow]
      rfl

theorem range_rows (n m : Nat) : List.range (n * m) = (List.range n).flatMap fun i => span (i * m) ((i + 1) * m) := by
  have hrows := rows_span 0 n m
  rw [Nat.zero_mul, span_zero, span_zero] at hrows
  exact hrows.symm

/-- Cells kept by their row. -/
theorem filter_rows (keep : Nat → Bool) (n m : Nat) :
    (List.range (n * m)).filter (fun b => keep (b / m)) =
      ((List.range n).filter keep).flatMap fun i => span (i * m) ((i + 1) * m) := by
  rw [range_rows, List.filter_flatMap]
  induction List.range n with
  | nil => rfl
  | cons i is ih =>
    have hrow : ∀ b ∈ span (i * m) ((i + 1) * m), b / m = i := fun b hb => by
      obtain ⟨hlow, hhigh⟩ := mem_span.mp hb
      exact Nat.div_eq_of_lt_le hlow hhigh
    rw [List.flatMap_cons, ih]
    cases hkeep : keep i with
    | true =>
      rw [List.filter_cons_of_pos hkeep, List.flatMap_cons]
      congr 1
      exact List.filter_eq_self.mpr fun b hb => by rw [hrow b hb, hkeep]
    | false =>
      rw [List.filter_cons_of_neg (by rw [hkeep]; decide)]
      refine (congrArg (· ++ _) ?_).trans (List.nil_append _)
      exact List.filter_eq_nil_iff.mpr fun b hb => by rw [hrow b hb, hkeep]; decide

/-- Cells kept by their column. -/
theorem filter_columns (n m : Nat) (hmid : a ≤ b) (hhi : b ≤ m) :
    (List.range (n * m)).filter (fun c => decide (a ≤ c % m ∧ c % m < b)) =
      (List.range n).flatMap fun i => span (i * m + a) (i * m + b) := by
  rw [range_rows, List.filter_flatMap]
  congr 1
  funext i
  have hsame : (span (i * m) ((i + 1) * m)).filter (fun c => decide (a ≤ c % m ∧ c % m < b)) =
      (span (i * m) ((i + 1) * m)).filter (fun c => decide (i * m + a ≤ c ∧ c < i * m + b)) := by
    refine List.filter_congr fun c hc => decide_eq_decide.mpr ?_
    obtain ⟨hlow, hhigh⟩ := mem_span.mp hc
    have hmod : c % m = c - i * m := by
      obtain ⟨k, rfl⟩ := Nat.exists_eq_add_of_le hlow
      rw [Nat.succ_mul] at hhigh
      rw [Nat.add_sub_cancel_left, Nat.add_comm, Nat.add_mul_mod_self_right, Nat.mod_eq_of_lt (by omega)]
    rw [hmod]
    omega
  rw [hsame]
  exact filter_span (Nat.le_add_right _ _) (Nat.add_le_add_left hmid _) (by rw [Nat.succ_mul]; omega)

/-- Place `i` lies in the `r`-th of `w` equal parts of `n`. -/
def Share (n w r i : Nat) : Prop := r * (n / w) ≤ i ∧ i < (r + 1) * (n / w)

instance (n w r i : Nat) : Decidable (Share n w r i) := inferInstanceAs (Decidable (_ ∧ _))

theorem share_end_le (h : r < w) (n : Nat) : (r + 1) * (n / w) ≤ n :=
  Nat.le_trans (Nat.mul_le_mul_right _ h) (Nat.mul_div_le n w)

theorem share_start_le (n w r : Nat) : r * (n / w) ≤ (r + 1) * (n / w) := Nat.mul_le_mul_right _ (Nat.le_succ r)

theorem share_end (n w r : Nat) : (r + 1) * (n / w) = r * (n / w) + n / w := Nat.succ_mul _ _

/-- The places of a part. -/
theorem filter_share (hr : r < w) (n : Nat) :
    (List.range n).filter (fun i => decide (Share n w r i)) = span (r * (n / w)) (r * (n / w) + n / w) := by
  rw [← share_end, ← span_zero]
  exact filter_span (Nat.zero_le _) (share_start_le n w r) (share_end_le hr n)

/-- The cells of a part of the columns. -/
theorem filter_share_columns (hr : r < w) (n m : Nat) :
    (List.range (n * m)).filter (fun c => decide (Share m w r (c % m))) =
      (List.range n).flatMap fun i => span (i * m + r * (m / w)) (i * m + r * (m / w) + m / w) := by
  refine (filter_columns n m (share_start_le m w r) (share_end_le hr m)).trans ?_
  congr 1
  funext i
  rw [share_end, Nat.add_assoc]

/-- The pieces of some rows are one range. -/
theorem pieces_rows (size m : Nat) (xs : List α) (lo n : Nat) :
    pieces size xs (span (lo * m) ((lo + n) * m)) = (xs.drop (lo * (m * size))).take (n * (m * size)) := by
  rw [pieces_span, Nat.add_mul, Nat.add_sub_cancel_left, Nat.mul_assoc, Nat.mul_assoc]

/-- Parts that divide `n` share no place. -/
theorem share_inj (h : Share n w r i) (h' : Share n w s i) : r = s := by
  obtain ⟨hlow, hhigh⟩ := h
  obtain ⟨hlow', hhigh'⟩ := h'
  rw [← Nat.div_eq_of_lt_le hlow hhigh, ← Nat.div_eq_of_lt_le hlow' hhigh']

theorem exists_share (hdvd : n % w = 0) (hi : i < n) : ∃ r < w, Share n w r i := by
  have hn : w * (n / w) = n := Nat.mul_div_cancel' (Nat.dvd_of_mod_eq_zero hdvd)
  have hpos : 0 < n / w := Nat.pos_of_ne_zero fun hzero => by
    rw [hzero, Nat.mul_zero] at hn
    omega
  have hlow := Nat.div_mul_le_self i (n / w)
  have hhigh := Nat.lt_mul_of_div_lt (Nat.lt_succ_self (i / (n / w))) hpos
  exact ⟨i / (n / w), (Nat.div_lt_iff_lt_mul hpos).mpr (by rw [hn]; exact hi), hlow, hhigh⟩

/-- Parts of rows are parts of the cells in them. -/
theorem share_div (hdvd : n % w = 0) (hd : 0 < d) : Share n w r (i / d) ↔ Share (n * d) w r i := by
  have hpart : n * d / w = n / w * d := by
    obtain ⟨l, rfl⟩ := Nat.dvd_of_mod_eq_zero hdvd
    rcases Nat.eq_zero_or_pos w with rfl | hw
    · simp
    · rw [Nat.mul_assoc, Nat.mul_div_cancel_left _ hw, Nat.mul_div_cancel_left _ hw]
  unfold Share
  rw [hpart, ← Nat.mul_assoc, ← Nat.mul_assoc, Nat.le_div_iff_mul_le hd, Nat.div_lt_iff_lt_mul hd]

/-- A loop over the cells of a grid is a loop over its rows. -/
theorem range_grid (n m : Nat) (f : Nat → List α) :
    (List.range (n * m)).flatMap f = (List.range n).flatMap fun i => (List.range m).flatMap fun j => f (i * m + j) := by
  rw [range_rows, List.flatMap_assoc]
  congr 1
  funext i
  have hrow : span (i * m) ((i + 1) * m) = (List.range m).map fun j => i * m + j := by
    rw [← span_zero, span_map_add, Nat.succ_mul]
    rfl
  rw [hrow, List.flatMap_map]

/-- A nested loop over rows and columns lists the cells in order. -/
theorem rows_map (n m : Nat) (f : Nat → Nat → α) :
    ((List.range n).flatMap fun i => (List.range m).map (f i)) =
      (List.range (n * m)).map fun e => f (e / m) (e % m) := by
  rw [range_rows, List.map_flatMap]
  congr 1
  funext i
  unfold span
  rw [Nat.succ_mul, Nat.add_sub_cancel_left, List.range'_eq_map_range, List.map_map]
  apply List.map_congr_left
  intro j hj
  have hj := List.mem_range.mp hj
  have hdiv : (i * m + j) / m = i := by
    rw [Nat.mul_comm, Nat.mul_add_div (by omega), Nat.div_eq_of_lt hj, Nat.add_zero]
  have hmod : (i * m + j) % m = j := by
    rw [Nat.mul_comm, Nat.mul_add_mod, Nat.mod_eq_of_lt hj]
  simp only [Function.comp, hdiv, hmod]

end Flambeau.Systems
