import Flambeau.Forward.Scratch
import Flambeau.Models.Configs

namespace Flambeau.Forward
open Models

inductive WorkerRole where
  | sd
  | tp (rank nRanks : Nat)
  | pp (rank nRanks layerStart layerEnd : Nat)
  | hybrid (stageIdx nStages rankInStage tpSize layerStart layerEnd : Nat)
deriving Repr, DecidableEq

namespace WorkerRole

def shard : WorkerRole → ShardMode
  | .sd | .pp .. => .replicated
  | .tp rank nRanks => .tp rank nRanks
  | .hybrid _ _ rankInStage tpSize _ _ => .tp rankInStage tpSize

def layerSlice : WorkerRole → Option (Nat × Nat)
  | .sd | .tp .. => none
  | .pp _ _ layerStart layerEnd => some (layerStart, layerEnd)
  | .hybrid _ _ _ _ layerStart layerEnd => some (layerStart, layerEnd)

end WorkerRole

structure LaunchParams where
  prefillUbatch : Nat
  maxSlots : Nat
  pagedKvPages : Option Nat
  kvLayout : KvLayout
deriving Repr, DecidableEq

/-- A rank that owns the layers `[ls, le)` keeps their widths. -/
def sliceConfig (cfg : ScratchConfig) : Option (Nat × Nat) → Option ScratchConfig
  | none => some cfg
  | some (ls, le) =>
    if le < ls then none
    else match cfg.perLayerKvWidths with
      | none => some { cfg with numLayers := le - ls }
      | some per =>
        if per.length < le then none
        else some { cfg with
          numLayers := le - ls, perLayerKvWidths := some ((per.drop ls).take (le - ls)) }

/-- The pool of a rank; `none` is an error or a panic. -/
def initRank (shape : ScratchShape) (role : WorkerRole) (params : LaunchParams) :
    Option ScratchPool := do
  let cfg ← scratchConfigFor shape role.shard params.prefillUbatch params.maxSlots
    params.pagedKvPages params.kvLayout
  let cfg ← sliceConfig cfg role.layerSlice
  ScratchPool.new cfg

/-- What decides how a layer's rows are addressed. -/
structure KvGeometry where
  kvWidth : Nat
  depth : Nat
  layout : KvLayout
deriving Repr, DecidableEq

def KvCache.geometry (kv : KvCache) : KvGeometry := ⟨kv.kvWidth, kv.depth, kv.layout⟩

namespace ScratchShape

/-- The slab depth the architecture asks for at a layer. -/
def depthAt (shape : ScratchShape) (params : LaunchParams) (li : Nat) : Nat :=
  shape.kvDepthAt li shape.maxSeqLen params.prefillUbatch

/-- The layout the architecture asks for at a layer. -/
def layoutAt (shape : ScratchShape) (params : LaunchParams) (nRanks li : Nat) : KvLayout :=
  match params.kvLayout with
  | .f16Contig => .f16Contig
  | .q8Contig => (shape.q8LayoutAt nRanks li).getD .q8Contig

end ScratchShape

/-- The vectors of a configuration, by global layer. -/
theorem config_vectors (h : scratchConfigFor shape shard ubatch slots pages layout = some cfg) :
    cfg.numLayers = shape.numLayers ∧ cfg.perLayerKvWidths = some (shape.perLayerKvWidths shard.nRanks) ∧
    cfg.perLayerKvDepths = some (shape.perLayerKvDepths shape.maxSeqLen ubatch) ∧
    cfg.kvLayout = layout ∧
    shape.perLayerKvLayouts shard.nRanks layout = some cfg.perLayerKvLayouts := by
  unfold scratchConfigFor at h
  cases hl : shape.perLayerKvLayouts shard.nRanks layout with
  | none => simp [hl] at h
  | some layouts =>
    simp only [hl, Option.map_some, Option.some.injEq] at h
    subst h
    exact ⟨rfl, rfl, rfl, rfl, rfl⟩

theorem slice_inside (h : sliceConfig cfg (some (ls, le)) = some sliced)
    (hw : cfg.perLayerKvWidths = some per) :
    ls ≤ le ∧ le ≤ per.length ∧
    sliced = { cfg with
      numLayers := le - ls, perLayerKvWidths := some ((per.drop ls).take (le - ls)) } := by
  unfold sliceConfig at h
  simp only [hw] at h
  split at h
  case isTrue => cases h
  case isFalse hls =>
    split at h
    case isTrue => cases h
    case isFalse hle =>
      cases h
      exact ⟨by omega, by omega, rfl⟩

/-- The layout a configuration holds for a layer of the model. -/
theorem layout_at {shape : ScratchShape} {params : LaunchParams}
    (h : shape.perLayerKvLayouts nRanks params.kvLayout = some layouts) (hli : li < shape.numLayers) :
    ScratchConfig.perLayer layouts params.kvLayout li = some (shape.layoutAt params nRanks li) := by
  unfold ScratchShape.perLayerKvLayouts at h
  unfold ScratchShape.layoutAt
  cases hk : params.kvLayout with
  | f16Contig =>
    simp only [hk, Option.some.injEq] at h
    subst h
    rfl
  | q8Contig =>
    simp only [hk] at h
    cases hm : (List.range shape.numLayers).mapM (shape.q8LayoutAt nRanks) with
    | none => simp [hm] at h
    | some ls =>
      simp only [hm, Option.map_some, Option.some.injEq] at h
      subst h
      obtain ⟨hget, hsome⟩ := mapM_range hm hli
      obtain ⟨layout, hlayout⟩ := Option.isSome_iff_exists.mp hsome
      simp only [ScratchConfig.perLayer, hget, hlayout, Option.getD_some]

theorem depth_at {shape : ScratchShape} (hli : li < shape.numLayers) :
    ScratchConfig.perLayer (some (shape.perLayerKvDepths maxSeqLen ubatch)) fallback li =
      some (shape.kvDepthAt li maxSeqLen ubatch) := by
  simp [ScratchConfig.perLayer, ScratchShape.perLayerKvDepths, List.getElem?_range hli]

theorem width_at {shape : ScratchShape} (hli : li < shape.numLayers) :
    (shape.perLayerKvWidths nRanks)[li]? = some (shape.kvWidthAt li nRanks) := by
  simp [ScratchShape.perLayerKvWidths, List.getElem?_range hli]

theorem kvCacheAt_geometry {config : ScratchConfig}
    (hw : ScratchConfig.perLayer config.perLayerKvWidths config.kvWidth li = some width)
    (hl : ScratchConfig.perLayer config.perLayerKvLayouts config.kvLayout li = some layout)
    (hd : ScratchConfig.perLayer config.perLayerKvDepths config.maxSeqLen li = some depth) :
    (config.kvCacheAt li).map KvCache.geometry = some ⟨width, depth, layout⟩ := by
  simp [ScratchConfig.kvCacheAt, hw, hl, hd, KvCache.geometry]

section
variable {shape : ScratchShape} {params : LaunchParams} {role : WorkerRole}

/-- The configuration a rank starts from, and what its pool is made of. -/
theorem initRank_parts (h : initRank shape role params = some pool) :
    ∃ cfg sliced, scratchConfigFor shape role.shard params.prefillUbatch params.maxSlots
      params.pagedKvPages params.kvLayout = some cfg ∧
      sliceConfig cfg role.layerSlice = some sliced ∧ ScratchPool.new sliced = some pool := by
  unfold initRank at h
  obtain ⟨cfg, hcfg, h⟩ := Option.bind_eq_some_iff.mp h
  obtain ⟨sliced, hsliced, h⟩ := Option.bind_eq_some_iff.mp h
  exact ⟨cfg, sliced, hcfg, hsliced, h⟩

theorem slice_le (hslice : role.layerSlice = some (ls, le))
    (h : initRank shape role params = some pool) : ls ≤ le ∧ le ≤ shape.numLayers := by
  obtain ⟨cfg, sliced, hcfg, hsliced, -⟩ := initRank_parts h
  obtain ⟨-, hw, -⟩ := config_vectors hcfg
  rw [hslice] at hsliced
  obtain ⟨hls, hle, -⟩ := slice_inside hsliced hw
  exact ⟨hls, by simpa [ScratchShape.perLayerKvWidths] using hle⟩

/-- Local layer `i` gets the width of layer `ls + i`, but the depth and the layout of
layer `i`. -/
theorem slice_geometry (hslice : role.layerSlice = some (ls, le))
    (h : initRank shape role params = some pool) (hlow : ls ≤ li) (hhigh : li < le) :
    (pool.kvCaches[li - ls]?).map KvCache.geometry =
      some ⟨shape.kvWidthAt li role.shard.nRanks, shape.depthAt params (li - ls),
        shape.layoutAt params role.shard.nRanks (li - ls)⟩ := by
  obtain ⟨-, hbound⟩ := slice_le hslice h
  obtain ⟨cfg, sliced, hcfg, hsliced, hnew⟩ := initRank_parts h
  obtain ⟨hn, hw, hd, hk, hl⟩ := config_vectors hcfg
  rw [hslice] at hsliced
  obtain ⟨hls, hle, rfl⟩ := slice_inside hsliced hw
  have hwidth : (((shape.perLayerKvWidths role.shard.nRanks).drop ls).take (le - ls))[li - ls]? =
      some (shape.kvWidthAt li role.shard.nRanks) := by
    rw [List.getElem?_take_of_lt (by omega), List.getElem?_drop, ← width_at (by omega)]
    congr 1
    omega
  rw [new_kvCaches hnew (by simp only; omega)]
  apply kvCacheAt_geometry
  · exact hwidth
  · rw [hk]
    exact layout_at hl (by omega)
  · rw [hd]
    exact depth_at (by omega)

/-- A rank without a slice gives every layer its own geometry. -/
theorem whole_geometry (hslice : role.layerSlice = none)
    (h : initRank shape role params = some pool) (hli : li < shape.numLayers) :
    (pool.kvCaches[li]?).map KvCache.geometry =
      some ⟨shape.kvWidthAt li role.shard.nRanks, shape.depthAt params li,
        shape.layoutAt params role.shard.nRanks li⟩ := by
  obtain ⟨cfg, sliced, hcfg, hsliced, hnew⟩ := initRank_parts h
  obtain ⟨hn, hw, hd, hk, hl⟩ := config_vectors hcfg
  rw [hslice] at hsliced
  cases hsliced
  rw [new_kvCaches hnew (by omega)]
  apply kvCacheAt_geometry
  · rw [hw]
    exact width_at hli
  · rw [hk]
    exact layout_at hl hli
  · rw [hd]
    exact depth_at hli

/-- A rank gives the layers of its slice the geometry a pool without a slice gives
them exactly where a layer and the one at its local index ask for the same depth and
layout, and the two pools shard its width alike. -/
theorem rank_geometry_iff {single : WorkerRole} (hslice : role.layerSlice = some (ls, le))
    (hsingle : single.layerSlice = none) (h : initRank shape role params = some pool)
    (hs : initRank shape single params = some singlePool) :
    (∀ li, ls ≤ li → li < le →
      (pool.kvCaches[li - ls]?).map KvCache.geometry =
        (singlePool.kvCaches[li]?).map KvCache.geometry) ↔
    ∀ li, ls ≤ li → li < le →
      shape.kvWidthAt li role.shard.nRanks = shape.kvWidthAt li single.shard.nRanks ∧
      shape.depthAt params (li - ls) = shape.depthAt params li ∧
      shape.layoutAt params role.shard.nRanks (li - ls) =
        shape.layoutAt params single.shard.nRanks li := by
  obtain ⟨-, hbound⟩ := slice_le hslice h
  constructor
  · intro hsame li hlow hhigh
    have heq := hsame li hlow hhigh
    rw [slice_geometry hslice h hlow hhigh, whole_geometry hsingle hs (by omega)] at heq
    simpa only [Option.some.injEq, KvGeometry.mk.injEq] using heq
  · intro hsame li hlow hhigh
    obtain ⟨hwidth, hdepth, hlayout⟩ := hsame li hlow hhigh
    rw [slice_geometry hslice h hlow hhigh, whole_geometry hsingle hs (by omega), hwidth, hdepth,
      hlayout]

end

/-- Sliding-window and global layers in turn, with one head width. -/
def alternating (pairs : Nat) : Gemma4V2Config where
  hidden := 2048
  intermediate := 8192
  numLayers := 2 * pairs
  numHeads := 8
  numKvHeads := List.replicate (2 * pairs) 4
  attn := (List.replicate pairs [⟨256, 1024⟩, ⟨256, 0⟩]).flatten
  contextLength := 8192
  vocabSize := 256000
  moe := none
  perLayerEmbd := none
  kvHeads_length := List.length_replicate
  attn_length := by simp [Nat.mul_comm]

def f16Launch : LaunchParams := ⟨512, 1, none, .f16Contig⟩

/-- A stage of a window layer and a global one, behind another such stage. -/
theorem even_stage_geometry :
    ∃ pool single, initRank (alternating 2).scratchShape (.pp 1 2 2 4) f16Launch = some pool ∧
      initRank (alternating 2).scratchShape .sd f16Launch = some single ∧
      ∀ li, 2 ≤ li → li < 4 →
        (pool.kvCaches[li - 2]?).map KvCache.geometry =
          (single.kvCaches[li]?).map KvCache.geometry := by
  have hrank : (initRank (alternating 2).scratchShape (.pp 1 2 2 4) f16Launch).isSome := by decide
  have hwhole : (initRank (alternating 2).scratchShape .sd f16Launch).isSome := by decide
  obtain ⟨pool, hpool⟩ := Option.isSome_iff_exists.mp hrank
  obtain ⟨single, hsingle⟩ := Option.isSome_iff_exists.mp hwhole
  refine ⟨pool, single, hpool, hsingle, (rank_geometry_iff rfl rfl hpool hsingle).mpr ?_⟩
  intro li hlow hhigh
  have hli : li = 2 ∨ li = 3 := by omega
  cases hli with
  | inl h =>
    subst h
    decide
  | inr h =>
    subst h
    decide

/-- The second rank of two gives the global layer the ring of the window layer. -/
theorem global_layer_on_a_ring :
    ∃ pool single, initRank (alternating 1).scratchShape (.pp 1 2 1 2) f16Launch = some pool ∧
      initRank (alternating 1).scratchShape .sd f16Launch = some single ∧
      (pool.kvCaches[1 - 1]?).map KvCache.geometry = some ⟨1024, 1536, .f16Contig⟩ ∧
      (single.kvCaches[1]?).map KvCache.geometry = some ⟨1024, 8192, .f16Contig⟩ :=
  ⟨_, _, rfl, rfl, rfl, rfl⟩

end Flambeau.Forward
