import Flambeau.Forward.Loader.Shard

namespace Flambeau.Forward

structure GdnHeadDims where
  numVHeads : Nat
  numKHeads : Nat
  headVDim : Nat
  headKDim : Nat
deriving Repr, DecidableEq

structure GdnShardCtx where
  kqReplicated : Bool
  rank : Nat
  nRanks : Nat
deriving Repr, DecidableEq

/-- Pack a rank's `[Q | K | V]` rows out of the whole tensor's, a row being
`row_bytes` bytes of it. -/
def packGdnQkvSlab (raw : List α) (heads : GdnHeadDims) (shard : GdnShardCtx) : Option (List α) := do
  let vPartFull := heads.numVHeads * heads.headVDim
  let kPartFull := heads.numKHeads * heads.headKDim
  let outerFull := vPartFull + 2 * kPartFull
  guard (outerFull ≤ raw.length)
  guard (shard.nRanks ≠ 0 ∧ vPartFull % shard.nRanks = 0)
  guard (shard.kqReplicated ∨ kPartFull % shard.nRanks = 0)
  let vLocal := vPartFull / shard.nRanks
  let kLocal := if shard.kqReplicated then kPartFull else kPartFull / shard.nRanks
  let qOff := if shard.kqReplicated then 0 else shard.rank * kLocal
  let kOff := kPartFull + qOff
  let vOff := 2 * kPartFull + shard.rank * vLocal
  let q ← sliceRows raw qOff (qOff + kLocal)
  let k ← sliceRows raw kOff (kOff + kLocal)
  let v ← sliceRows raw vOff (vOff + vLocal)
  some (q ++ k ++ v)

/-- The fused tensor on disk. -/
def fusedQkv (g : GdnDims) : List HeadRow :=
  headRows .q g.headKDim (List.range g.numKHeads) ++
  headRows .k g.headKDim (List.range g.numKHeads) ++
  headRows .v g.headVDim (List.range g.numVHeads)

section
variable {g : GdnDims} {first count localV rank nRanks : Nat}

/-- A slab of a stretch of K heads and the rank's V heads. -/
def slabRows (g : GdnDims) (kHeads vHeads : List Nat) : List HeadRow :=
  headRows .q g.headKDim kHeads ++ headRows .k g.headKDim kHeads ++ headRows .v g.headVDim vHeads

/-- With the true head counts the packer cuts whole heads. -/
theorem pack_stretch (g : GdnDims) (first count localV : Nat) (hranks : nRanks ≠ 0)
    (hrank : rank < nRanks) (hv : g.numVHeads = localV * nRanks) (kq : Bool)
    (hk : if kq then first = 0 ∧ count = g.numKHeads
      else first = rank * count ∧ g.numKHeads = count * nRanks) :
    packGdnQkvSlab (fusedQkv g) ⟨g.numVHeads, g.numKHeads, g.headVDim, g.headKDim⟩
        ⟨kq, rank, nRanks⟩ =
      some (slabRows g (List.range' first count) (List.range' (rank * localV) localV)) := by
  have hvpart : g.numVHeads * g.headVDim = localV * g.headVDim * nRanks := by
    rw [hv, Nat.mul_right_comm]
  have hkpart : kq = false → g.numKHeads * g.headKDim = count * g.headKDim * nRanks := by
    intro hkq
    simp only [hkq, Bool.false_eq_true, ↓reduceIte] at hk
    rw [hk.2, Nat.mul_right_comm]
  have hlocal : (if kq = true then g.numKHeads * g.headKDim
      else g.numKHeads * g.headKDim / nRanks) = count * g.headKDim := by
    cases kq with
    | false =>
      rw [if_neg (by simp), hkpart rfl, Nat.mul_div_cancel _ (by omega)]
    | true =>
      rw [if_pos rfl, hk.2]
  have hoff : (if kq = true then 0 else rank * (count * g.headKDim)) = first * g.headKDim := by
    cases kq with
    | false =>
      rw [if_neg (by simp), hk.1, Nat.mul_assoc]
    | true =>
      rw [if_pos rfl, hk.1, Nat.zero_mul]
  have hstretch : first + count ≤ g.numKHeads := by
    cases kq with
    | false =>
      rw [hk.1, hk.2, ← Nat.succ_mul, Nat.mul_comm]
      exact Nat.mul_le_mul_left count hrank
    | true => exact Nat.le_of_eq (by rw [hk.1, hk.2, Nat.zero_add])
  have hvstretch : rank * localV + localV ≤ g.numVHeads := by
    rw [hv, ← Nat.succ_mul, Nat.mul_comm]
    exact Nat.mul_le_mul_left localV hrank
  have hq : sliceRows (fusedQkv g) (first * g.headKDim)
      (first * g.headKDim + count * g.headKDim) =
      some (headRows .q g.headKDim (List.range' first count)) := by
    rw [fusedQkv, List.append_assoc, ← List.nil_append (headRows .q g.headKDim _)]
    apply slice_heads .q g.headKDim [] _ hstretch
    · simp
    · rfl
  have hkrows : sliceRows (fusedQkv g) (g.numKHeads * g.headKDim + first * g.headKDim)
      (g.numKHeads * g.headKDim + first * g.headKDim + count * g.headKDim) =
      some (headRows .k g.headKDim (List.range' first count)) := by
    apply slice_heads .k g.headKDim _ _ hstretch
    · simp
    · rfl
  have hvrows : sliceRows (fusedQkv g)
      (2 * (g.numKHeads * g.headKDim) + rank * (localV * g.headVDim))
      (2 * (g.numKHeads * g.headKDim) + rank * (localV * g.headVDim) + localV * g.headVDim) =
      some (headRows .v g.headVDim (List.range' (rank * localV) localV)) := by
    rw [← List.append_nil (fusedQkv g)]
    apply slice_heads .v g.headVDim _ [] hvstretch
    · simp only [List.length_append, headRows_length, List.length_range, Nat.mul_assoc]
      omega
    · rfl
  have houter : localV * g.headVDim * nRanks + 2 * (g.numKHeads * g.headKDim) ≤
      (fusedQkv g).length := by
    simp only [fusedQkv, List.length_append, headRows_length, List.length_range, ← hvpart]
    omega
  have hguard : kq = true ∨ g.numKHeads * g.headKDim % nRanks = 0 := by
    cases kq with
    | false => exact .inr (by rw [hkpart rfl, Nat.mul_mod_left])
    | true => exact .inl rfl
  unfold packGdnQkvSlab
  simp only [hlocal, hoff, hvpart, Nat.mul_div_cancel _ (Nat.pos_of_ne_zero hranks), hq, hkrows,
    hvrows, guard, houter, hranks, Nat.mul_mod_left, hguard, ↓reduceIte, ne_eq, not_false_eq_true,
    and_self, Option.bind_eq_bind, Option.bind_some, Option.pure_def]
  rfl

end

/-- The size of a slab, whatever the rows are. -/
theorem pack_length (h : packGdnQkvSlab raw heads shard = some slab) :
    slab.length = 2 * (if shard.kqReplicated then heads.numKHeads * heads.headKDim
      else heads.numKHeads * heads.headKDim / shard.nRanks) +
      heads.numVHeads * heads.headVDim / shard.nRanks := by
  unfold packGdnQkvSlab at h
  simp only [Option.bind_eq_bind, Option.bind_eq_some_iff, Option.some.injEq] at h
  obtain ⟨_, -, _, -, _, -, q, hq, k, hk, v, hv, rfl⟩ := h
  rw [List.length_append, List.length_append, slice_length hq, slice_length hk, slice_length hv]
  omega

end Flambeau.Forward
