namespace Flambeau.Systems

/-- The numbers from `lo` to below `hi`. -/
def span (lo hi : Nat) : List Nat := List.range' lo (hi - lo)

@[simp] theorem mem_span : t ∈ span lo hi ↔ lo ≤ t ∧ t < hi := by
  unfold span
  rw [List.mem_range'_1]
  omega

@[simp] theorem length_span (lo hi : Nat) : (span lo hi).length = hi - lo :=
  List.length_range'

theorem span_empty (h : hi ≤ lo) : span lo hi = [] := by
  unfold span
  rw [Nat.sub_eq_zero_of_le h]
  rfl

theorem span_cons (h : lo < hi) : span lo hi = lo :: span (lo + 1) hi := by
  unfold span
  have hlen : hi - lo = hi - (lo + 1) + 1 := by omega
  rw [hlen, List.range'_succ]

theorem span_one (n : Nat) : span n (n + 1) = [n] := by
  rw [span_cons (Nat.lt_succ_self n), span_empty (Nat.le_refl _)]

theorem span_append (hlo : lo ≤ mid) (hhi : mid ≤ hi) :
    span lo mid ++ span mid hi = span lo hi := by
  unfold span
  have hlen : hi - lo = (mid - lo) + (hi - mid) := by omega
  have hmid : mid = lo + 1 * (mid - lo) := by omega
  rw [hlen]
  conv => lhs; rhs; rw [hmid]
  rw [List.range'_append]
  congr 2
  omega

theorem span_map_add (lo hi k : Nat) :
    (span lo hi).map (fun t => k + t) = span (k + lo) (k + hi) := by
  unfold span
  rw [List.map_add_range']
  congr 1
  omega

theorem span_zero (n : Nat) : span 0 n = List.range n := by
  unfold span
  rw [List.range_eq_range', Nat.sub_zero]

/-- Chunks of one size, cut off at `hi`, cover a span in order. -/
theorem span_chunks (lo hi size n : Nat) :
    ((List.range n).flatMap fun c => span (lo + c * size) (min (lo + (c + 1) * size) hi)) =
      span lo (min (lo + n * size) hi) := by
  induction n with
  | zero => simp [span_empty, Nat.min_le_left]
  | succ n ih =>
    rw [List.range_succ, List.flatMap_append, ih]
    simp only [List.flatMap_cons, List.flatMap_nil, List.append_nil]
    have hstep : n * size ≤ (n + 1) * size := Nat.mul_le_mul_right size (Nat.le_succ n)
    by_cases hend : lo + n * size ≤ hi
    · rw [Nat.min_eq_left hend]
      apply span_append (Nat.le_add_right ..)
      omega
    · have hpast : hi ≤ lo + n * size := by omega
      rw [Nat.min_eq_right hpast, Nat.min_eq_right (by omega), span_empty hpast, List.append_nil]

/-- Blocks of one size, end to end. -/
theorem span_blocks (size : Nat) :
    ((span a b).flatMap fun c => span (c * size) (c * size + size)) =
      span (a * size) (b * size) := by
  generalize hlen : b - a = len
  induction len generalizing a with
  | zero =>
    have hle : b ≤ a := by omega
    rw [span_empty hle, span_empty (Nat.mul_le_mul_right size hle)]
    rfl
  | succ len ih =>
    have hlt : a < b := by omega
    rw [span_cons hlt, List.flatMap_cons, ih (by omega), Nat.succ_mul]
    apply span_append (Nat.le_add_right ..)
    rw [← Nat.succ_mul]
    exact Nat.mul_le_mul_right size hlt

/-- A mask to a span inside another keeps just that span. -/
theorem span_filter (hlo : a ≤ lo) (hhi : hi ≤ b) :
    ((span a b).filter fun t => decide (lo ≤ t) && decide (t < hi)) = span lo hi := by
  by_cases hne : lo < hi
  · rw [← span_append hlo (Nat.le_of_lt (Nat.lt_of_lt_of_le hne hhi)),
      ← span_append (Nat.le_of_lt hne) hhi, List.filter_append, List.filter_append]
    have hbefore : (span a lo).filter (fun t => decide (lo ≤ t) && decide (t < hi)) = [] := by
      apply List.filter_eq_nil_iff.mpr
      intro t ht
      simp only [mem_span] at ht
      simp
      omega
    have hinside : (span lo hi).filter (fun t => decide (lo ≤ t) && decide (t < hi)) = span lo hi := by
      apply List.filter_eq_self.mpr
      intro t ht
      simpa using ht
    have hafter : (span hi b).filter (fun t => decide (lo ≤ t) && decide (t < hi)) = [] := by
      apply List.filter_eq_nil_iff.mpr
      intro t ht
      simp only [mem_span] at ht
      simp
      omega
    rw [hbefore, hinside, hafter, List.nil_append, List.append_nil]
  · rw [span_empty (Nat.le_of_not_lt hne)]
    apply List.filter_eq_nil_iff.mpr
    intro t _
    simp
    omega

/-- `n.div_ceil(size)`. -/
def divCeil (n size : Nat) : Nat := (n + size - 1) / size

theorem le_divCeil_mul (h : 0 < size) (n : Nat) : n ≤ divCeil n size * size := by
  unfold divCeil
  have hdiv := Nat.div_add_mod (n + size - 1) size
  have hmod := Nat.mod_lt (n + size - 1) h
  rw [Nat.mul_comm] at hdiv
  omega

end Flambeau.Systems
