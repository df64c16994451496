import Flambeau.Forward.Scratch

namespace Flambeau.Forward

/-- `raw[start..stop]`; out of range it panics. -/
def sliceRows (raw : List α) (start stop : Nat) : Option (List α) :=
  if start ≤ stop ∧ stop ≤ raw.length then some ((raw.drop start).take (stop - start)) else none

/-- Replicate the tensor or col-shard its `n_rows` output rows. -/
def uploadCol (raw : List α) (nRows : Nat) : ShardMode → Option (List α)
  | .replicated => some raw
  | .tp rank nRanks => do
    guard (nRanks ≠ 0 ∧ nRows % nRanks = 0)
    guard (nRows ≤ raw.length)
    let rowsPerRank := nRows / nRanks
    sliceRows raw (rank * rowsPerRank) (rank * rowsPerRank + rowsPerRank)

/-- What a row of a projection belongs to. -/
inductive QkvPart where
  | q | k | v
deriving Repr, DecidableEq

structure HeadRow where
  part : QkvPart
  head : Nat
  dim : Nat
deriving Repr, DecidableEq

/-- The rows of some heads, head by head. -/
def headRows (part : QkvPart) (dim : Nat) (heads : List Nat) : List HeadRow :=
  heads.flatMap fun h => (List.range dim).map fun d => ⟨part, h, d⟩

@[simp] theorem headRows_nil : headRows part dim [] = [] := rfl

theorem headRows_append (part : QkvPart) (dim : Nat) (xs ys : List Nat) :
    headRows part dim (xs ++ ys) = headRows part dim xs ++ headRows part dim ys := by
  unfold headRows
  rw [List.flatMap_append]

@[simp] theorem headRows_length (part : QkvPart) (dim : Nat) (heads : List Nat) :
    (headRows part dim heads).length = heads.length * dim := by
  induction heads with
  | nil => simp
  | cons h heads ih =>
    have hcons : headRows part dim (h :: heads) =
        headRows part dim [h] ++ headRows part dim heads := headRows_append part dim [h] heads
    rw [hcons, List.length_append, ih, List.length_cons, Nat.succ_mul, Nat.add_comm]
    simp [headRows]

/-- The heads before a stretch of them, the stretch, and those behind it. -/
theorem range_stretch (h : first + count ≤ n) :
    List.range n = List.range first ++ (List.range' first count ++
      List.range' (first + count) (n - (first + count))) := by
  have hbehind : List.range' first count ++ List.range' (first + count) (n - (first + count)) =
      List.range' first (n - first) := by
    rw [List.range'_append_1]
    congr 1
    omega
  have hfirst := List.range'_append_1 (s := 0) (m := first) (n := n - first)
  rw [Nat.zero_add, Nat.add_sub_cancel' (by omega)] at hfirst
  rw [hbehind, List.range_eq_range', List.range_eq_range', hfirst]

theorem slice_between (xs ys zs : List α) (hstart : start = xs.length)
    (hstop : stop = xs.length + ys.length) :
    sliceRows (xs ++ (ys ++ zs)) start stop = some ys := by
  subst hstart hstop
  unfold sliceRows
  rw [if_pos (by simp), List.drop_left, Nat.add_sub_cancel_left, List.take_left]

/-- A stretch of heads is a slice of the rows of all of them. -/
theorem slice_heads (part : QkvPart) (dim : Nat) (before behind : List HeadRow)
    (h : first + count ≤ n) (hstart : start = before.length + first * dim)
    (hstop : stop = start + count * dim) :
    sliceRows (before ++ headRows part dim (List.range n) ++ behind) start stop =
      some (headRows part dim (List.range' first count)) := by
  rw [range_stretch h, headRows_append, headRows_append]
  simp only [List.append_assoc]
  rw [← List.append_assoc]
  apply slice_between
  · simp [hstart]
  · simp [hstop, hstart]

theorem slice_length (h : sliceRows raw start (start + n) = some ys) : ys.length = n := by
  unfold sliceRows at h
  split at h
  case isTrue hin =>
    cases h
    rw [List.length_take, List.length_drop]
    omega
  case isFalse => cases h

theorem guard_holds {p : Prop} [Decidable p] {u : Unit} (h : (guard p : Option Unit) = some u) :
    p := by
  unfold guard at h
  split at h
  case isTrue hp => exact hp
  case isFalse => cases h

/-- A rank's share of whole heads. -/
theorem uploadCol_heads {part : QkvPart} {dim heads localHeads rank nRanks : Nat}
    (hranks : 0 < nRanks) (hrank : rank < nRanks) (hheads : heads = localHeads * nRanks)
    (h : uploadCol (headRows part dim (List.range heads)) (heads * dim) (.tp rank nRanks) =
      some rows) :
    rows = headRows part dim (List.range' (rank * localHeads) localHeads) := by
  have hrows : heads * dim / nRanks = localHeads * dim := by
    rw [hheads, Nat.mul_right_comm, Nat.mul_div_cancel _ hranks]
  have hinside : rank * localHeads + localHeads ≤ heads := by
    rw [hheads, ← Nat.succ_mul, Nat.mul_comm]
    exact Nat.mul_le_mul_left localHeads hrank
  unfold uploadCol at h
  simp only [hrows] at h
  obtain ⟨_, -, h⟩ := Option.bind_eq_some_iff.mp h
  obtain ⟨_, -, h⟩ := Option.bind_eq_some_iff.mp h
  have hstart : rank * (localHeads * dim) =
      ([] : List HeadRow).length + rank * localHeads * dim := by simp [Nat.mul_assoc]
  have hslice := slice_heads part dim [] [] hinside hstart rfl
  simp only [List.nil_append, List.append_nil] at hslice
  rw [hslice, Option.some.injEq] at h
  exact h.symm

end Flambeau.Forward
