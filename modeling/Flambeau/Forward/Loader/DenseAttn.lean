import Flambeau.Forward.Loader.Shard
import Flambeau.Models.Configs

namespace Flambeau.Forward
open Models

structure DenseAttnLayerSpec where
  nHeads : Nat
  nKvHeads : Nat
  headDim : Nat
  /-- `attn_q` on disk has the gate rows of a head behind its Q rows. -/
  attnQGated : Bool
  /-- Without `attn_v` on disk V is copied from K. -/
  hasAttnV : Bool
deriving Repr, DecidableEq

namespace DenseAttnLayerSpec

/-- Rows of `attn_q` for one head. -/
def qRows (spec : DenseAttnLayerSpec) : Nat :=
  if spec.attnQGated then 2 * spec.headDim else spec.headDim

/-- The projections on disk. -/
def attnQ (spec : DenseAttnLayerSpec) : List HeadRow :=
  headRows .q spec.qRows (List.range spec.nHeads)

def attnK (spec : DenseAttnLayerSpec) : List HeadRow :=
  headRows .k spec.headDim (List.range spec.nKvHeads)

def attnV (spec : DenseAttnLayerSpec) : Option (List HeadRow) :=
  if spec.hasAttnV then some (headRows .v spec.headDim (List.range spec.nKvHeads)) else none

end DenseAttnLayerSpec

/-- A layer's projections on a rank, with the rank's head counts. -/
structure AttnWeights where
  attnQ : List HeadRow
  attnK : List HeadRow
  attnV : Option (List HeadRow)
  nHeads : Nat
  nKvHeads : Nat
  headDim : Nat
deriving Repr, DecidableEq

/-- `attn_v`, where it is on disk. -/
def uploadIfThere (raw : Option (List α)) (nRows : Nat) (shard : ShardMode) :
    Option (Option (List α)) :=
  match raw with
  | none => some none
  | some raw => (uploadCol raw nRows shard).map some

/-- Fewer KV heads than ranks are replicated, more are col-sharded. -/
def loadDenseAttnLayer (spec : DenseAttnLayerSpec) (shard : ShardMode) : Option AttnWeights := do
  let nRanks := shard.nRanks
  guard (nRanks ≠ 0 ∧ spec.nHeads % nRanks = 0)
  let replicateKv := spec.nKvHeads < nRanks
  guard (replicateKv ∨ spec.nKvHeads % nRanks = 0)
  let kvShard := if replicateKv then .replicated else shard
  let qWidth := spec.nHeads * spec.headDim
  let kvWidth := spec.nKvHeads * spec.headDim
  let attnQRows := if spec.attnQGated then 2 * qWidth else qWidth
  let attnQ ← uploadCol spec.attnQ attnQRows shard
  let attnK ← uploadCol spec.attnK kvWidth kvShard
  let attnV ← uploadIfThere spec.attnV kvWidth kvShard
  some { attnQ := attnQ
         attnK := attnK
         attnV := attnV
         nHeads := spec.nHeads / nRanks
         nKvHeads := if replicateKv then spec.nKvHeads else spec.nKvHeads / nRanks
         headDim := spec.headDim }

/-- The kernels' `q_head / (n_heads_q / n_heads_kv)`; `none` is a division by zero. -/
def kvHeadOf (nHeads nKvHeads qHead : Nat) : Option Nat :=
  if nKvHeads = 0 ∨ nHeads / nKvHeads = 0 then none else some (qHead / (nHeads / nKvHeads))

/-- The KV heads of a rank's projections. -/
def rankKvHeads (spec : DenseAttnLayerSpec) (nRanks rank : Nat) : List Nat :=
  if spec.nKvHeads < nRanks then List.range spec.nKvHeads
  else List.range' (rank * (spec.nKvHeads / nRanks)) (spec.nKvHeads / nRanks)

/-- The KV head a Q head attends to, out of the heads the projections hold. -/
def attendedHead (nHeads nKvHeads : Nat) (kvHeads : List Nat) (qHead : Nat) : Option Nat :=
  (kvHeadOf nHeads nKvHeads qHead).bind fun kv => kvHeads[kv]?

/-- A rank holds whole heads, and its Q heads attend to the KV heads they attend to on
a single device. -/
structure GqaLikeDevice (spec : DenseAttnLayerSpec) (nRanks rank : Nat) (w : AttnWeights) : Prop where
  q : w.attnQ = headRows .q spec.qRows (List.range' (rank * w.nHeads) w.nHeads)
  k : w.attnK = headRows .k spec.headDim (rankKvHeads spec nRanks rank)
  v : ∀ rows, w.attnV = some rows → rows = headRows .v spec.headDim (rankKvHeads spec nRanks rank)
  attends : ∀ j < w.nHeads,
    attendedHead w.nHeads w.nKvHeads (rankKvHeads spec nRanks rank) j =
      attendedHead spec.nHeads spec.nKvHeads (List.range spec.nKvHeads) (rank * w.nHeads + j)

/-- The layers that the models load with `load_dense_attn_layer`. -/
inductive AttnLayer where
  | gemma4 (config : Gemma4V2Config) (li : Nat) (hasAttnV : Bool)
  | qwen35 (config : Qwen35V2Config) (li : Nat) (full : config.isRecurrent li = false)

namespace AttnLayer

def spec : AttnLayer → DenseAttnLayerSpec
  | gemma4 config li hasAttnV =>
    ⟨config.numHeads, config.numKvHeads.getD li 0, config.headDimAt li, false, hasAttnV⟩
  | qwen35 config _ _ => ⟨config.nHeads, config.nKvHeads, config.headDim, true, true⟩

def kvWidthAt : AttnLayer → Nat → Nat
  | gemma4 config li _ => config.kvWidthAt li
  | qwen35 config li _ => config.kvWidthAt li

end AttnLayer

section
variable {spec : DenseAttnLayerSpec} {w : AttnWeights} {nRanks rank : Nat}

/-- Whole heads, whether the tensor is replicated on one rank or sharded over many. -/
theorem uploadCol_share {part : QkvPart} {dim heads : Nat}
    (hshard : shard = .tp rank nRanks ∨ nRanks = 1 ∧ shard = .replicated)
    (hrank : rank < nRanks) (hdvd : nRanks ∣ heads)
    (h : uploadCol (headRows part dim (List.range heads)) (heads * dim) shard = some rows) :
    rows = headRows part dim (List.range' (rank * (heads / nRanks)) (heads / nRanks)) := by
  cases hshard with
  | inl htp =>
    subst htp
    exact uploadCol_heads (by omega) hrank (Nat.div_mul_cancel hdvd).symm h
  | inr hone =>
    obtain ⟨hone, hrepl⟩ := hone
    subst hone hrepl
    have hzero : rank = 0 := by omega
    unfold uploadCol at h
    simp only [Option.some.injEq] at h
    rw [← h, hzero, Nat.zero_mul, Nat.div_one, ← List.range_eq_range']

theorem uploadCol_kv {part : QkvPart}
    (hshard : shard = .tp rank nRanks ∨ nRanks = 1 ∧ shard = .replicated)
    (hrank : rank < nRanks) (hdvd : nRanks ≤ spec.nKvHeads → nRanks ∣ spec.nKvHeads)
    (h : uploadCol (headRows part spec.headDim (List.range spec.nKvHeads))
      (spec.nKvHeads * spec.headDim)
      (if spec.nKvHeads < nRanks then .replicated else shard) = some rows) :
    rows = headRows part spec.headDim (rankKvHeads spec nRanks rank) := by
  unfold rankKvHeads
  by_cases hfew : spec.nKvHeads < nRanks
  · rw [if_pos hfew] at h ⊢
    unfold uploadCol at h
    simp only [Option.some.injEq] at h
    exact h.symm
  · rw [if_neg hfew] at h ⊢
    exact uploadCol_share hshard hrank (hdvd (by omega)) h

/-- What a successful load says of the rank's head counts and rows. -/
theorem load_parts
    (hshard : shard = .tp rank nRanks ∨ nRanks = 1 ∧ shard = .replicated)
    (hrank : rank < nRanks) (h : loadDenseAttnLayer spec shard = some w) :
    nRanks ∣ spec.nHeads ∧ (nRanks ≤ spec.nKvHeads → nRanks ∣ spec.nKvHeads) ∧
    w.nHeads = spec.nHeads / nRanks ∧ w.headDim = spec.headDim ∧
    w.nKvHeads = (if spec.nKvHeads < nRanks then spec.nKvHeads else spec.nKvHeads / nRanks) ∧
    w.attnQ = headRows .q spec.qRows (List.range' (rank * w.nHeads) w.nHeads) ∧
    w.attnK = headRows .k spec.headDim (rankKvHeads spec nRanks rank) ∧
    ∀ rows, w.attnV = some rows → rows = headRows .v spec.headDim (rankKvHeads spec nRanks rank) := by
  have hn : shard.nRanks = nRanks := by
    cases hshard with
    | inl htp =>
      subst htp
      rfl
    | inr hone =>
      obtain ⟨hone, hrepl⟩ := hone
      subst hone hrepl
      rfl
  unfold loadDenseAttnLayer at h
  simp only [hn] at h
  obtain ⟨_, hheads, h⟩ := Option.bind_eq_some_iff.mp h
  obtain ⟨_, hkv, h⟩ := Option.bind_eq_some_iff.mp h
  obtain ⟨attnQ, hq, h⟩ := Option.bind_eq_some_iff.mp h
  obtain ⟨attnK, hk, h⟩ := Option.bind_eq_some_iff.mp h
  obtain ⟨attnV, hv, h⟩ := Option.bind_eq_some_iff.mp h
  simp only [Option.some.injEq] at h
  subst h
  have hdvd : nRanks ∣ spec.nHeads := Nat.dvd_of_mod_eq_zero (guard_holds hheads).2
  have hkvdvd : nRanks ≤ spec.nKvHeads → nRanks ∣ spec.nKvHeads := by
    intro hle
    cases guard_holds hkv with
    | inl hfew => omega
    | inr hmod => exact Nat.dvd_of_mod_eq_zero hmod
  have hwidth : (if spec.attnQGated = true then 2 * (spec.nHeads * spec.headDim)
      else spec.nHeads * spec.headDim) = spec.nHeads * spec.qRows := by
    unfold DenseAttnLayerSpec.qRows
    split
    · rw [Nat.mul_left_comm]
    · rfl
  rw [hwidth] at hq
  refine ⟨hdvd, hkvdvd, rfl, rfl, rfl, uploadCol_share hshard hrank hdvd hq,
    uploadCol_kv hshard hrank hkvdvd hk, ?_⟩
  intro rows hrows
  simp only at hrows
  subst hrows
  unfold DenseAttnLayerSpec.attnV at hv
  split at hv
  case isTrue =>
    obtain ⟨shared, hup, heq⟩ := Option.map_eq_some_iff.mp hv
    cases heq
    exact uploadCol_kv hshard hrank hkvdvd hup
  case isFalse => cases hv

theorem kvHeadOf_some (hkv : 0 < nKvHeads) (hgroup : 0 < nHeads / nKvHeads) (qHead : Nat) :
    kvHeadOf nHeads nKvHeads qHead = some (qHead / (nHeads / nKvHeads)) := by
  unfold kvHeadOf
  rw [if_neg (by omega)]

/-- On a single device every Q head attends to a head of its group. -/
theorem device_attends (hdvd : nKvHeads ∣ nHeads) (hq : qHead < nHeads) :
    attendedHead nHeads nKvHeads (List.range nKvHeads) qHead =
      some (qHead / (nHeads / nKvHeads)) := by
  have hkv : 0 < nKvHeads := Nat.pos_of_dvd_of_pos hdvd (by omega)
  have hgroup : 0 < nHeads / nKvHeads := Nat.div_pos (Nat.le_of_dvd (by omega) hdvd) hkv
  unfold attendedHead
  rw [kvHeadOf_some hkv hgroup, Option.bind_some, List.getElem?_range]
  rw [Nat.div_lt_iff_lt_mul hgroup, Nat.mul_comm, Nat.div_mul_cancel hdvd]
  exact hq

/-- Sharded KV heads keep the group size. -/
theorem sharded_attends (hrank : rank < nRanks) (hdvd : nKvHeads ∣ nHeads)
    (hranks : nRanks ∣ nKvHeads) (hj : j < nHeads / nRanks) :
    attendedHead (nHeads / nRanks) (nKvHeads / nRanks)
        (List.range' (rank * (nKvHeads / nRanks)) (nKvHeads / nRanks)) j =
      attendedHead nHeads nKvHeads (List.range nKvHeads) (rank * (nHeads / nRanks) + j) := by
  obtain ⟨share, hshare⟩ := hranks
  obtain ⟨group, hgroup⟩ := hdvd
  have hpos : 0 < nRanks := by omega
  have hkvlocal : nKvHeads / nRanks = share := by rw [hshare, Nat.mul_div_cancel_left _ hpos]
  have hlocal : nHeads / nRanks = share * group := by
    rw [hgroup, hshare, Nat.mul_assoc, Nat.mul_div_cancel_left _ hpos]
  rw [hlocal] at hj
  have hgpos : 0 < group := by
    apply Nat.pos_of_ne_zero
    intro hzero
    rw [hzero] at hj
    omega
  have hspos : 0 < share := by
    apply Nat.pos_of_ne_zero
    intro hzero
    rw [hzero, Nat.zero_mul] at hj
    omega
  have hone : share * group / share = group := Nat.mul_div_cancel_left _ hspos
  have hmany : nHeads / nKvHeads = group := by
    rw [hgroup, Nat.mul_div_cancel_left]
    rw [hshare]
    exact Nat.mul_pos hpos hspos
  have hinside : rank * (nHeads / nRanks) + j < nHeads := by
    have hle := Nat.mul_le_mul_right (share * group) hrank
    rw [Nat.succ_mul] at hle
    rw [hlocal, hgroup, hshare, Nat.mul_assoc]
    omega
  have hjg : j / group < share := by
    rw [Nat.div_lt_iff_lt_mul hgpos]
    exact hj
  rw [device_attends ⟨group, hgroup⟩ hinside, hmany, hlocal, hkvlocal]
  unfold attendedHead
  rw [kvHeadOf_some hspos (by rw [hone]; exact hgpos), Option.bind_some, hone,
    List.getElem?_range' hjg, Nat.one_mul, ← Nat.mul_assoc, Nat.mul_comm (rank * share),
    Nat.mul_add_div hgpos]

/-- What replication asks of a Q head: its place in the rank's groups is its group. -/
theorem replicated_attends (hrank : rank < nRanks) (hdvd : nKvHeads ∣ nHeads)
    (hranks : nRanks ∣ nHeads) (hkv : nKvHeads ≤ nHeads / nRanks) (hj : j < nHeads / nRanks) :
    attendedHead (nHeads / nRanks) nKvHeads (List.range nKvHeads) j =
        attendedHead nHeads nKvHeads (List.range nKvHeads) (rank * (nHeads / nRanks) + j) ↔
      j / (nHeads / nRanks / nKvHeads) =
        (rank * (nHeads / nRanks) + j) / (nHeads / nKvHeads) := by
  have hinside : rank * (nHeads / nRanks) + j < nHeads := by
    have hle := Nat.mul_le_mul_right (nHeads / nRanks) hrank
    rw [Nat.succ_mul, Nat.mul_comm nRanks, Nat.div_mul_cancel hranks] at hle
    omega
  have hkvpos : 0 < nKvHeads := Nat.pos_of_dvd_of_pos hdvd (by omega)
  have hgroup : 0 < nHeads / nRanks / nKvHeads := Nat.div_pos hkv hkvpos
  have hdevice := device_attends hdvd hinside
  rw [hdevice]
  unfold attendedHead at hdevice ⊢
  rw [kvHeadOf_some hkvpos hgroup, Option.bind_some]
  constructor
  · intro h
    obtain ⟨_, hget⟩ := List.getElem?_eq_some_iff.mp h
    rwa [List.getElem_range] at hget
  · intro h
    rw [h]
    rw [kvHeadOf_some hkvpos (Nat.div_pos (Nat.le_of_dvd (by omega) hdvd) hkvpos),
      Option.bind_some] at hdevice
    exact hdevice

theorem too_few_heads (hkv : nHeads < nKvHeads) (qHead : Nat) :
    attendedHead nHeads nKvHeads kvHeads qHead = none := by
  unfold attendedHead kvHeadOf
  rw [if_pos (.inr (Nat.div_eq_of_lt hkv)), Option.bind_none]

/-- Heads counted in their group of `g` and in the whole layer's group of `G` agree only
for two groups that meet in the middle of the rank's heads. -/
theorem groups_agree {kv L G g rank R : Nat} (hkv : 2 ≤ kv) (hg : g = L / kv) (hgpos : 0 < g)
    (hwhole : L * R = G * kv) (hfew : kv < R)
    (hall : ∀ j < L, j / g = (rank * L + j) / G) :
    kv = 2 ∧ L % 2 = 0 ∧ R = 2 * rank + 1 := by
  have hLpos : 0 < L := by
    apply Nat.pos_of_ne_zero
    intro hzero
    rw [hg, hzero, Nat.zero_div] at hgpos
    omega
  have hfill : g * kv ≤ L := by
    rw [hg]
    exact Nat.div_mul_le_self L kv
  have hwide : L < G := by
    apply Nat.lt_of_not_le
    intro hle
    have hmul := Nat.mul_le_mul_right kv hle
    have hlt := Nat.mul_lt_mul_of_pos_left hfew hLpos
    omega
  have hfirst : rank * L < G := by
    have h := hall 0 hLpos
    rw [Nat.zero_div, Nat.add_zero] at h
    exact Nat.lt_of_div_eq_zero (by omega) h.symm
  have hlast : L - 1 < 2 * g := by
    have h := hall (L - 1) (by omega)
    have hone : (rank * L + (L - 1)) / G < 2 := by
      rw [Nat.div_lt_iff_lt_mul (by omega)]
      omega
    rw [← h, Nat.div_lt_iff_lt_mul hgpos] at hone
    exact hone
  have htwo : kv = 2 := by
    have hle : kv ≤ 2 := by
      apply Nat.le_of_not_lt
      intro hlt
      have hmul := Nat.mul_le_mul_left g (show 3 ≤ kv from hlt)
      omega
    omega
  subst htwo
  have hhalf : L = 2 * g := by omega
  have hbelow : rank * L + (g - 1) < G := by
    have h := hall (g - 1) (by omega)
    rw [Nat.div_eq_of_lt (by omega)] at h
    exact Nat.lt_of_div_eq_zero (by omega) h.symm
  have habove : G ≤ rank * L + g := by
    have h := hall g (by omega)
    rw [Nat.div_self hgpos] at h
    apply Nat.le_of_not_lt
    intro hlt
    rw [Nat.div_eq_of_lt hlt] at h
    omega
  have hmid : G = g * (2 * rank + 1) := by
    rw [Nat.mul_add, Nat.mul_one, ← Nat.mul_assoc, Nat.mul_comm g 2, ← hhalf, Nat.mul_comm L]
    omega
  have hranks : g * R = g * (2 * rank + 1) := by
    rw [hhalf, Nat.mul_assoc, Nat.mul_comm G] at hwhole
    omega
  exact ⟨rfl, by omega, Nat.eq_of_mul_eq_mul_left hgpos hranks⟩

/-- Replicated KV heads pair as on a single device for one KV head, and for two on the
middle rank of an odd number of ranks. -/
theorem replicated_attends_iff (hrank : rank < nRanks) (hfew : nKvHeads < nRanks)
    (hdvd : nKvHeads ∣ nHeads) (hranks : nRanks ∣ nHeads) :
    (∀ j < nHeads / nRanks,
      attendedHead (nHeads / nRanks) nKvHeads (List.range nKvHeads) j =
        attendedHead nHeads nKvHeads (List.range nKvHeads) (rank * (nHeads / nRanks) + j)) ↔
      nKvHeads ≤ 1 ∨ nHeads = 0 ∨
        (nKvHeads = 2 ∧ nHeads / nRanks % 2 = 0 ∧ nRanks = 2 * rank + 1) := by
  have hlocal : nHeads / nRanks * nRanks = nHeads := Nat.div_mul_cancel hranks
  have hgroup : nHeads / nKvHeads * nKvHeads = nHeads := Nat.div_mul_cancel hdvd
  have hinside : ∀ j < nHeads / nRanks, rank * (nHeads / nRanks) + j < nHeads := by
    intro j hj
    have hle := Nat.mul_le_mul_right (nHeads / nRanks) hrank
    rw [Nat.succ_mul, Nat.mul_comm nRanks, hlocal] at hle
    omega
  constructor
  · intro hall
    by_cases hone : nKvHeads ≤ 1
    · exact .inl hone
    by_cases hnone : nHeads = 0
    · exact .inr (.inl hnone)
    have hLpos : 0 < nHeads / nRanks :=
      Nat.div_pos (Nat.le_of_dvd (by omega) hranks) (by omega)
    have hkv : nKvHeads ≤ nHeads / nRanks := by
      apply Nat.le_of_not_lt
      intro hlt
      have hzero := hall 0 hLpos
      rw [too_few_heads hlt, device_attends hdvd (hinside 0 hLpos)] at hzero
      cases hzero
    refine .inr (.inr (groups_agree (by omega) rfl (Nat.div_pos hkv (by omega))
      (hlocal.trans hgroup.symm) hfew ?_))
    intro j hj
    exact (replicated_attends hrank hdvd hranks hkv hj).mp (hall j hj)
  · intro hcases j hj
    have hLpos : 0 < nHeads / nRanks := by omega
    have hpos : 0 < nHeads := by
      have hlt := hinside j hj
      omega
    have hkvpos : 0 < nKvHeads := Nat.pos_of_dvd_of_pos hdvd hpos
    by_cases hone : nKvHeads = 1
    · rw [replicated_attends hrank hdvd hranks (by omega) hj, hone, Nat.div_one, Nat.div_one,
        Nat.div_eq_of_lt hj, Nat.div_eq_of_lt (hinside j hj)]
    · obtain ⟨htwo, heven, hmiddle⟩ : nKvHeads = 2 ∧ nHeads / nRanks % 2 = 0 ∧
          nRanks = 2 * rank + 1 := by omega
      rw [replicated_attends hrank hdvd hranks (by omega) hj, htwo]
      obtain ⟨g, hg⟩ : ∃ g, nHeads / nRanks = 2 * g := ⟨nHeads / nRanks / 2, by omega⟩
      have hwhole : nHeads / 2 = g * nRanks := by
        rw [← hlocal, hg, Nat.mul_assoc, Nat.mul_div_cancel_left _ (by omega)]
      rw [hg, Nat.mul_div_cancel_left _ (by omega), hwhole]
      rw [hg] at hj
      have hspan : g * nRanks = rank * (2 * g) + g := by
        rw [hmiddle]
        grind
      rw [hspan]
      by_cases hlow : j < g
      · rw [Nat.div_eq_of_lt hlow, Nat.div_eq_of_lt (by omega)]
      · have hone : j / g = 1 := by
          rw [Nat.div_eq_iff (by omega)]
          omega
        rw [hone, eq_comm, Nat.div_eq_iff (by omega)]
        omega

end

/-- When the Q heads of a rank attend as on a single device: the KV heads are sharded,
or there is at most one, or no Q head, or two on the middle rank. -/
def GroupsSurvive (spec : DenseAttnLayerSpec) (nRanks rank : Nat) : Prop :=
  nRanks ≤ spec.nKvHeads ∨ spec.nKvHeads ≤ 1 ∨ spec.nHeads = 0 ∨
    (spec.nKvHeads = 2 ∧ spec.nHeads / nRanks % 2 = 0 ∧ nRanks = 2 * rank + 1)

/-- When the slab is as wide as the rank's K rows: gemma4 sizes a replicated layer
whole, qwen35 at no head at all. -/
def WidthStated (layer : AttnLayer) (nRanks : Nat) : Prop :=
  match layer with
  | .gemma4 .. => True
  | .qwen35 config .. =>
    nRanks ≤ config.nKvHeads ∨ config.nKvHeads = 0 ∨ config.headDim = 0

theorem like_device_iff {spec : DenseAttnLayerSpec} (hdvd : spec.nKvHeads ∣ spec.nHeads)
    (hrank : rank < nRanks)
    (hshard : shard = .tp rank nRanks ∨ nRanks = 1 ∧ shard = .replicated)
    (h : loadDenseAttnLayer spec shard = some w) :
    GqaLikeDevice spec nRanks rank w ↔ GroupsSurvive spec nRanks rank := by
  obtain ⟨hheads, hkvs, hn, -, hnkv, hq, hk, hv⟩ := load_parts hshard hrank h
  have hattends : GqaLikeDevice spec nRanks rank w ↔ ∀ j < w.nHeads,
      attendedHead w.nHeads w.nKvHeads (rankKvHeads spec nRanks rank) j =
        attendedHead spec.nHeads spec.nKvHeads (List.range spec.nKvHeads)
          (rank * w.nHeads + j) := ⟨fun hlike => hlike.attends, fun hall => ⟨hq, hk, hv, hall⟩⟩
  rw [hattends, hn, hnkv]
  unfold rankKvHeads GroupsSurvive
  by_cases hfew : spec.nKvHeads < nRanks
  · rw [if_pos hfew, if_pos hfew, replicated_attends_iff hrank hfew hdvd hheads]
    constructor
    · exact .inr
    · intro hcases
      cases hcases with
      | inl hmany => omega
      | inr hcases => exact hcases
  · rw [if_neg hfew, if_neg hfew]
    constructor
    · intro _
      exact .inl (by omega)
    · intro _ j hj
      exact sharded_attends hrank hdvd (hkvs (by omega)) hj

theorem width_iff {layer : AttnLayer} (hrank : rank < nRanks)
    (hshard : shard = .tp rank nRanks ∨ nRanks = 1 ∧ shard = .replicated)
    (h : loadDenseAttnLayer layer.spec shard = some w) :
    w.nKvHeads * w.headDim = layer.kvWidthAt nRanks ↔ WidthStated layer nRanks := by
  obtain ⟨-, -, -, hd, hnkv, -⟩ := load_parts hshard hrank h
  rw [hd]
  cases layer with
  | gemma4 config li hasAttnV =>
    rw [hnkv]
    exact ⟨fun _ => trivial, fun _ => rfl⟩
  | qwen35 config li full =>
    have hlocal : w.nKvHeads =
        if config.nKvHeads < nRanks then config.nKvHeads else config.nKvHeads / nRanks := hnkv
    simp only [AttnLayer.spec, AttnLayer.kvWidthAt, Qwen35V2Config.kvWidthAt, full, hlocal,
      Bool.false_eq_true, ↓reduceIte, WidthStated]
    by_cases hfew : config.nKvHeads < nRanks
    · rw [if_pos hfew, Nat.div_eq_of_lt hfew, Nat.zero_mul, Nat.mul_eq_zero]
      omega
    · rw [if_neg hfew]
      omega

/-- A rank attends as a single device does, in a slab of the stated width, exactly when
its groups survive and the width is stated. -/
theorem gqa_iff {layer : AttnLayer} (hdvd : layer.spec.nKvHeads ∣ layer.spec.nHeads)
    (hrank : rank < nRanks)
    (hshard : shard = .tp rank nRanks ∨ nRanks = 1 ∧ shard = .replicated)
    (h : loadDenseAttnLayer layer.spec shard = some w) :
    (GqaLikeDevice layer.spec nRanks rank w ∧
        w.nKvHeads * w.headDim = layer.kvWidthAt nRanks) ↔
      GroupsSurvive layer.spec nRanks rank ∧ WidthStated layer nRanks := by
  rw [like_device_iff hdvd hrank hshard h, width_iff hrank hshard h]

/-- One layer of eight Q heads. -/
def eightHeads (kvHeads : Nat) : Gemma4V2Config where
  hidden := 32
  intermediate := 64
  numLayers := 1
  numHeads := 8
  numKvHeads := [kvHeads]
  attn := [⟨4, 0⟩]
  contextLength := 64
  vocabSize := 16
  moe := none
  perLayerEmbd := none
  kvHeads_length := rfl
  attn_length := rfl

/-- One KV head replicated on two ranks. -/
theorem one_kv_head_attends :
    ∃ w, loadDenseAttnLayer (AttnLayer.gemma4 (eightHeads 1) 0 true).spec (.tp 1 2) = some w ∧
      GqaLikeDevice (AttnLayer.gemma4 (eightHeads 1) 0 true).spec 2 1 w ∧
      w.nKvHeads * w.headDim = (AttnLayer.gemma4 (eightHeads 1) 0 true).kvWidthAt 2 := by
  have hload : (loadDenseAttnLayer (AttnLayer.gemma4 (eightHeads 1) 0 true).spec
      (.tp 1 2)).isSome := by decide
  obtain ⟨w, hw⟩ := Option.isSome_iff_exists.mp hload
  refine ⟨w, hw, (gqa_iff (by decide) (by decide) (.inl rfl) hw).mpr ⟨?_, trivial⟩⟩
  exact .inr (.inl (by decide))

/-- Two KV heads replicated on four ranks: the second Q head of the first rank attends
to the second KV head, on a single device to the first. -/
theorem two_kv_heads_cross :
    ∃ w, loadDenseAttnLayer (AttnLayer.gemma4 (eightHeads 2) 0 true).spec (.tp 0 4) = some w ∧
      attendedHead w.nHeads w.nKvHeads [0, 1] 1 = some 1 ∧
      attendedHead 8 2 [0, 1] (0 * w.nHeads + 1) = some 0 ∧
      ¬ GqaLikeDevice (AttnLayer.gemma4 (eightHeads 2) 0 true).spec 4 0 w := by
  refine ⟨_, rfl, rfl, rfl, ?_⟩
  intro hlike
  have hsecond := hlike.attends 1 (by decide)
  revert hsecond
  decide

end Flambeau.Forward
