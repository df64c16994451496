import Flambeau.Systems.Spans
import Flambeau.Quant.GgufRanges

namespace Flambeau.Server
open Systems Quant

/-- What decides a split. A model whose layers all own their KV has 0
`sharedKvLayers`. -/
structure LayeredModel where
  numLayers : Nat
  /-- `attn[li].window_size`. -/
  windowSizes : List Int
  sharedKvLayers : Nat
  windows_length : windowSizes.length = numLayers
  numLayers_lt : numLayers < 2 ^ 32
deriving Repr

/-- The loop that resolves `kv_share_src`: a layer past the owners takes the last owner of
its kind. -/
def shareLoop (nKvFromStart : Nat) :
    Nat → Option Nat → Option Nat → List Int → List (Option Nat)
  | _, _, _, [] => []
  | li, lastSwa, lastFull, window :: rest =>
    if li < nKvFromStart then
      if 0 < window then none :: shareLoop nKvFromStart (li + 1) (some li) lastFull rest
      else none :: shareLoop nKvFromStart (li + 1) lastSwa (some li) rest
    else
      (if 0 < window then lastSwa else lastFull) ::
        shareLoop nKvFromStart (li + 1) lastSwa lastFull rest

namespace LayeredModel

variable (model : LayeredModel)

def kvShareSrc : List (Option Nat) :=
  shareLoop (model.numLayers - model.sharedKvLayers) 0 none none model.windowSizes

/-- The lowest source, where the last stage has to begin. -/
def ppKvShareBoundary : Option Nat := (model.kvShareSrc.filterMap id).min?

end LayeredModel

inductive MeshMode where
  | pp
  | tp (world : UInt32)
  | hybrid (ppSize tpSize : UInt32)
deriving Repr, DecidableEq

inductive Topology where
  | singleDevice (device : Int)
  | pp (devices : List Int) (layerSplit : List Nat)
  | tp (devices : List Int)
  | hybrid (stages : List (List Int)) (layerSplit : List Nat)
deriving Repr, DecidableEq

inductive MeshError where
  /-- "--layer-split has {} entries but topology has {} PP ranks" -/
  | splitEntries (entries nGroups : Nat)
  /-- "--layer-split sums to {} but model has {} layers" -/
  | splitSum (sum numLayers : Nat)
  /-- "kv_share_pp_boundary={} cannot be honored (num_layers={}, n_groups={})" -/
  | boundaryUnhonored (boundary numLayers nGroups : Nat)
  /-- "kv_share boundary {} too small to split across {} non-tail ranks" -/
  | boundaryTooSmall (boundary prefixGroups : Nat)
  /-- "--mesh-mode tp: --tp-size {} but {} devices supplied" -/
  | tpDevices (world devices : Nat)
  /-- "--mesh-mode pp+tp: {}*{} != {} devices" -/
  | hybridDevices (pp tp devices : Nat)
  /-- The panic of a division by no ranks. -/
  | divideByZero
deriving Repr, DecidableEq

/-- `base + usize::from(i < rem)` for each group. -/
def evenSplit (n groups : Nat) : List Nat :=
  (List.range groups).map fun i => n / groups + if i < n % groups then 1 else 0

def resolveSplit (numLayers : Nat) (overrideSplit : Option (List UInt64))
    (kvShareBoundary : Option Nat) (nGroups : Nat) : Except MeshError (List Nat) :=
  match overrideSplit with
  | some s =>
    if s.length ≠ nGroups then .error (.splitEntries s.length nGroups)
    else
      let sum := (s.map UInt64.toNat).sum % 2 ^ 64
      if sum ≠ numLayers then .error (.splitSum sum numLayers)
      else .ok (s.map UInt64.toNat)
  | none =>
    match kvShareBoundary with
    | some b =>
      if nGroups = 1 then .ok [numLayers]
      else if b = 0 ∨ numLayers ≤ b then .error (.boundaryUnhonored b numLayers nGroups)
      else
        -- `n_groups - 1` wraps for an empty mesh
        let prefixGroups := if nGroups = 0 then 2 ^ 64 - 1 else nGroups - 1
        if b < prefixGroups then .error (.boundaryTooSmall b prefixGroups)
        else .ok (evenSplit b prefixGroups ++ [numLayers - b])
    | none => if nGroups = 0 then .error .divideByZero else .ok (evenSplit numLayers nGroups)

def topologyFromMesh (mesh : MeshMode) (deviceIds : List Int) (numLayers : Nat)
    (overrideSplit : Option (List UInt64)) (kvShareBoundary : Option Nat) :
    Except MeshError Topology :=
  match mesh with
  | .pp =>
    match deviceIds with
    | [device] => .ok (.singleDevice device)
    | _ =>
      (resolveSplit numLayers overrideSplit kvShareBoundary deviceIds.length).map
        (.pp deviceIds)
  | .tp world =>
    if deviceIds.length % 2 ^ 32 ≠ world.toNat then
      .error (.tpDevices world.toNat deviceIds.length)
    else .ok (.tp deviceIds)
  | .hybrid ppSize tpSize =>
    let pp := ppSize.toNat
    let tp := tpSize.toNat
    if pp * tp ≠ deviceIds.length then .error (.hybridDevices pp tp deviceIds.length)
    else
      let stages := (List.range pp).map fun s => (deviceIds.drop (s * tp)).take tp
      (resolveSplit numLayers overrideSplit kvShareBoundary pp).map (.hybrid stages)

/-- The cursor of `launch_pp` and `launch_hybrid` over a split. -/
def layerRanges : Nat → List Nat → List (Nat × Nat)
  | _, [] => []
  | cursor, count :: rest =>
    (cursor, uadd cursor count) :: layerRanges (uadd cursor count) rest

/-- The layers each stage runs; without stages a worker runs them all. -/
def Topology.stageRanges (numLayers : Nat) : Topology → List (Nat × Nat)
  | .singleDevice _ | .tp _ => [(0, numLayers)]
  | .pp devices split =>
    if split.isEmpty then devices.map fun _ => (0, 0) else layerRanges 0 split
  | .hybrid stages split =>
    if split.isEmpty then stages.map fun _ => (0, 0) else layerRanges 0 split

/-- The ranges are not empty and list every layer once, in order. -/
def PartitionsLayers (ranges : List (Nat × Nat)) (numLayers : Nat) : Prop :=
  (∀ r ∈ ranges, r.1 < r.2) ∧ (ranges.flatMap fun r => span r.1 r.2) = List.range numLayers

/-- A layer that reuses another's KV is in the range of its source. -/
def KeepsSharedKv (ranges : List (Nat × Nat)) (kvShareSrc : List (Option Nat)) : Prop :=
  ∀ li src, kvShareSrc[li]? = some (some src) →
    ∃ r ∈ ranges, (r.1 ≤ src ∧ src < r.2) ∧ r.1 ≤ li ∧ li < r.2

/-- An override of positive counts that add up, without a cut between a layer and its
source; no override, and a layer for each group where no layer shares. -/
def SplitFits (model : LayeredModel) (overrideSplit : Option (List UInt64)) (nGroups : Nat) :
    Prop :=
  match overrideSplit with
  | some s =>
    (∀ count ∈ s.map UInt64.toNat, 0 < count) ∧ (s.map UInt64.toNat).sum = model.numLayers ∧
      ∀ li src, model.kvShareSrc[li]? = some (some src) →
        ∀ k, ¬ (src < ((s.map UInt64.toNat).take k).sum ∧ ((s.map UInt64.toNat).take k).sum ≤ li)
  | none => model.ppKvShareBoundary = none → nGroups ≤ model.numLayers

def MeshFits (model : LayeredModel) (mesh : MeshMode) (deviceIds : List Int)
    (overrideSplit : Option (List UInt64)) : Prop :=
  match mesh with
  | .pp =>
    match deviceIds with
    | [_] => 0 < model.numLayers
    | _ => SplitFits model overrideSplit deviceIds.length
  | .tp _ => 0 < model.numLayers
  | .hybrid ppSize _ => SplitFits model overrideSplit ppSize.toNat

/-- A shared layer's source is before it. -/
theorem shareLoop_source (hnext : ∀ src, lastSwa = some src ∨ lastFull = some src → src < li)
    (h : (shareLoop nKv li lastSwa lastFull windows)[i]? = some (some src)) :
    src < li + i ∧ i < windows.length := by
  induction windows generalizing li lastSwa lastFull i with
  | nil => simp [shareLoop] at h
  | cons window rest ih =>
    have hlater : ∀ lastSwa lastFull : Option Nat,
        (∀ src, lastSwa = some src ∨ lastFull = some src → src < li + 1) →
        ∀ i, (shareLoop nKv (li + 1) lastSwa lastFull rest)[i]? = some (some src) →
          src < li + (i + 1) ∧ i + 1 < (window :: rest).length := by
      intro lastSwa lastFull hstep i hi
      obtain ⟨hlt, hlen⟩ := ih hstep hi
      rw [List.length_cons]
      omega
    have hkept : ∀ src, lastSwa = some src ∨ lastFull = some src → src < li + 1 := by
      intro src hsrc
      have hold := hnext src hsrc
      omega
    unfold shareLoop at h
    by_cases howner : li < nKv
    · rw [if_pos howner] at h
      by_cases hwindow : 0 < window
      · rw [if_pos hwindow] at h
        cases i with
        | zero => simp at h
        | succ i =>
          refine hlater _ _ ?_ i (by simpa using h)
          rintro src (hswa | hfull)
          · cases hswa
            omega
          · exact hkept src (.inr hfull)
      · rw [if_neg hwindow] at h
        cases i with
        | zero => simp at h
        | succ i =>
          refine hlater _ _ ?_ i (by simpa using h)
          rintro src (hswa | hfull)
          · exact hkept src (.inl hswa)
          · cases hfull
            omega
    · rw [if_neg howner] at h
      cases i with
      | zero =>
        have hsrc : lastSwa = some src ∨ lastFull = some src := by
          rw [List.getElem?_cons_zero, Option.some.injEq] at h
          split at h
          · exact .inl h
          · exact .inr h
        have hold := hnext src hsrc
        rw [List.length_cons]
        omega
      | succ i => exact hlater _ _ hkept i (by simpa using h)

namespace LayeredModel

variable {model : LayeredModel} {li src b : Nat}

theorem source_lt (h : model.kvShareSrc[li]? = some (some src)) :
    src < li ∧ li < model.numLayers := by
  have hloop := shareLoop_source (by rintro src (h | h) <;> cases h) h
  rw [model.windows_length] at hloop
  omega

theorem mem_sources (h : model.kvShareSrc[li]? = some (some src)) :
    src ∈ model.kvShareSrc.filterMap id :=
  List.mem_filterMap.mpr ⟨some src, List.mem_of_getElem? h, rfl⟩

theorem boundary_le (hb : model.ppKvShareBoundary = some b)
    (h : model.kvShareSrc[li]? = some (some src)) : b ≤ src :=
  (List.min?_eq_some_iff.mp hb).2 src (mem_sources h)

theorem not_shared (hb : model.ppKvShareBoundary = none) (li src : Nat) :
    model.kvShareSrc[li]? ≠ some (some src) := by
  intro h
  have hempty := List.min?_eq_none_iff.mp hb
  have hmem := mem_sources h
  rw [hempty] at hmem
  exact List.not_mem_nil hmem

theorem boundary_lt (hb : model.ppKvShareBoundary = some b) : b < model.numLayers := by
  have hmem := (List.min?_eq_some_iff.mp hb).1
  obtain ⟨source, hsource, hid⟩ := List.mem_filterMap.mp hmem
  obtain ⟨li, hli⟩ := List.mem_iff_getElem?.mp hsource
  cases source with
  | none => cases hid
  | some src =>
    cases hid
    have hlt := source_lt hli
    omega

end LayeredModel

theorem evenSplit_sum (n : Nat) (h : 0 < groups) : (evenSplit n groups).sum = n := by
  have hsum : ∀ k, ((List.range k).map fun i => n / groups + if i < n % groups then 1 else 0).sum =
      k * (n / groups) + min k (n % groups) := by
    intro k
    induction k with
    | zero => simp
    | succ k ih =>
      rw [List.range_succ, List.map_append, List.sum_append, ih, List.map_singleton,
        List.sum_singleton, Nat.succ_mul]
      split <;> omega
  have hrem := Nat.mod_lt n h
  unfold evenSplit
  rw [hsum, Nat.min_eq_right (by omega), Nat.div_add_mod]

theorem evenSplit_pos (h : 0 < groups) (hle : groups ≤ n) : ∀ count ∈ evenSplit n groups, 0 < count := by
  intro count hcount
  obtain ⟨i, -, rfl⟩ := List.mem_map.mp hcount
  have hbase := Nat.div_pos hle h
  omega

/-- With fewer layers than groups the last group is empty. -/
theorem evenSplit_zero (h : n < groups) : 0 ∈ evenSplit n groups := by
  refine List.mem_map.mpr ⟨groups - 1, List.mem_range.mpr (by omega), ?_⟩
  rw [Nat.div_eq_of_lt h, Nat.mod_eq_of_lt h, if_neg (by omega)]

theorem evenSplit_length (n groups : Nat) : (evenSplit n groups).length = groups := by
  simp [evenSplit]

theorem layerRanges_bounds (hfit : cursor + split.sum < 2 ^ 64) :
    ∀ r ∈ layerRanges cursor split, cursor ≤ r.1 := by
  induction split generalizing cursor with
  | nil => simp [layerRanges]
  | cons count rest ih =>
    rw [List.sum_cons] at hfit
    have hnext : uadd cursor count = cursor + count := Nat.mod_eq_of_lt (by omega)
    intro r hr
    unfold layerRanges at hr
    rw [hnext] at hr
    rcases List.mem_cons.mp hr with rfl | hr
    · exact Nat.le_refl _
    · have hrest := ih (by omega) r hr
      omega

theorem layerRanges_flatMap (hfit : cursor + split.sum < 2 ^ 64) :
    ((layerRanges cursor split).flatMap fun r => span r.1 r.2) =
      span cursor (cursor + split.sum) := by
  induction split generalizing cursor with
  | nil => rw [List.sum_nil, Nat.add_zero, span_empty (Nat.le_refl _)]; rfl
  | cons count rest ih =>
    rw [List.sum_cons] at hfit ⊢
    have hnext : uadd cursor count = cursor + count := Nat.mod_eq_of_lt (by omega)
    unfold layerRanges
    rw [hnext, List.flatMap_cons, ih (by omega), span_append (by omega) (by omega)]
    congr 1
    omega

/-- Without an overflow the ranges are not empty exactly when the counts are not 0; an
overflow makes a range run backwards. -/
theorem layerRanges_nonempty (hcursor : cursor < 2 ^ 64) (hword : ∀ count ∈ split, count < 2 ^ 64) :
    (∀ r ∈ layerRanges cursor split, r.1 < r.2) ↔
      (∀ count ∈ split, 0 < count) ∧ cursor + split.sum < 2 ^ 64 := by
  induction split generalizing cursor with
  | nil => simpa [layerRanges] using hcursor
  | cons count rest ih =>
    have hcount := hword count (List.mem_cons_self ..)
    have hrest := fun c hc => hword c (List.mem_cons_of_mem _ hc)
    have hnext : uadd cursor count = (cursor + count) % 2 ^ 64 := rfl
    have hlt : uadd cursor count < 2 ^ 64 := Nat.mod_lt _ (by omega)
    unfold layerRanges
    rw [List.forall_mem_cons, List.forall_mem_cons, ih hlt hrest, List.sum_cons]
    constructor
    · rintro ⟨hhead, hpos, hfit⟩
      have hexact : uadd cursor count = cursor + count := by
        rw [hnext] at hhead ⊢
        dsimp only at hhead
        omega
      rw [hexact] at hfit hhead
      dsimp only at hhead
      exact ⟨⟨by omega, hpos⟩, by omega⟩
    · rintro ⟨⟨hhead, hpos⟩, hfit⟩
      have hexact : uadd cursor count = cursor + count := Nat.mod_eq_of_lt (by omega)
      rw [hexact]
      exact ⟨by dsimp only; omega, hpos, by omega⟩

/-- The stages of a split are a partition exactly when its counts are positive and add up. -/
theorem partitions_iff (hlayers : numLayers < 2 ^ 64) (hword : ∀ count ∈ split, count < 2 ^ 64) :
    PartitionsLayers (layerRanges 0 split) numLayers ↔
      (∀ count ∈ split, 0 < count) ∧ split.sum = numLayers := by
  unfold PartitionsLayers
  rw [layerRanges_nonempty (by omega) hword, Nat.zero_add]
  constructor
  · rintro ⟨⟨hpos, hfit⟩, hall⟩
    rw [layerRanges_flatMap (by omega), Nat.zero_add] at hall
    have hlen := congrArg List.length hall
    rw [length_span, List.length_range] at hlen
    exact ⟨hpos, by omega⟩
  · rintro ⟨hpos, hsum⟩
    refine ⟨⟨hpos, by omega⟩, ?_⟩
    rw [layerRanges_flatMap (by omega), Nat.zero_add, hsum, span_zero]

/-- Two layers are on one stage exactly when no cut of the split falls between them. -/
theorem same_stage_iff (hfit : cursor + split.sum < 2 ^ 64) (hlo : cursor ≤ src) (hle : src ≤ li)
    (hhi : li < cursor + split.sum) :
    (∃ r ∈ layerRanges cursor split, (r.1 ≤ src ∧ src < r.2) ∧ r.1 ≤ li ∧ li < r.2) ↔
      ∀ k, ¬ (src < cursor + (split.take k).sum ∧ cursor + (split.take k).sum ≤ li) := by
  induction split generalizing cursor with
  | nil =>
    rw [List.sum_nil] at hhi
    omega
  | cons count rest ih =>
    rw [List.sum_cons] at hfit hhi
    have hnext : uadd cursor count = cursor + count := Nat.mod_eq_of_lt (by omega)
    have hbounds : ∀ r ∈ layerRanges (cursor + count) rest, cursor + count ≤ r.1 :=
      layerRanges_bounds (by omega)
    unfold layerRanges
    rw [hnext]
    by_cases hhead : li < cursor + count
    · constructor
      · rintro - k ⟨hcut, hbefore⟩
        cases k with
        | zero => simp at hcut; omega
        | succ k =>
          rw [List.take_succ_cons, List.sum_cons] at hbefore
          omega
      · intro _
        exact ⟨_, List.mem_cons_self .., ⟨hlo, by dsimp only; omega⟩, by dsimp only; omega, hhead⟩
    · by_cases hcut : src < cursor + count
      · constructor
        · rintro ⟨r, hr, ⟨hsrc, -⟩, -, hli⟩
          rcases List.mem_cons.mp hr with rfl | hr
          · dsimp only at hli
            omega
          · have hstart := hbounds r hr
            omega
        · intro h
          refine absurd ⟨?_, ?_⟩ (h 1)
          · simpa using hcut
          · simpa using Nat.le_of_not_lt hhead
      · have htail := @ih (cursor + count) (by omega) (by omega) (by omega)
        constructor
        · rintro ⟨r, hr, hsrc, hli⟩ k ⟨hbehind, hbefore⟩
          have hr : r ∈ layerRanges (cursor + count) rest := by
            rcases List.mem_cons.mp hr with rfl | hr
            · have := hli.2
              dsimp only at this
              omega
            · exact hr
          cases k with
          | zero => simp at hbehind; omega
          | succ k =>
            rw [List.take_succ_cons, List.sum_cons] at hbehind hbefore
            exact htail.mp ⟨r, hr, hsrc, hli⟩ k ⟨by omega, by omega⟩
        · intro h
          obtain ⟨r, hr, hboth⟩ := htail.mpr fun k hk => by
            refine h (k + 1) ?_
            rw [List.take_succ_cons, List.sum_cons]
            exact ⟨by omega, by omega⟩
          exact ⟨r, List.mem_cons_of_mem _ hr, hboth⟩

theorem evenSplit_word (n : Nat) (h : n < 2 ^ 32) : ∀ count ∈ evenSplit n groups, count < 2 ^ 64 := by
  intro count hcount
  obtain ⟨i, -, rfl⟩ := List.mem_map.mp hcount
  have hbase := Nat.div_le_self n groups
  split <;> omega

/-- What a run has to find of its stages. -/
def SoundStages (model : LayeredModel) (ranges : List (Nat × Nat)) : Prop :=
  PartitionsLayers ranges model.numLayers ∧ KeepsSharedKv ranges model.kvShareSrc

theorem soundStages_iff (model : LayeredModel) (hword : ∀ count ∈ split, count < 2 ^ 64) :
    SoundStages model (layerRanges 0 split) ↔
      (∀ count ∈ split, 0 < count) ∧ split.sum = model.numLayers ∧
        ∀ li src, model.kvShareSrc[li]? = some (some src) →
          ∀ k, ¬ (src < (split.take k).sum ∧ (split.take k).sum ≤ li) := by
  have hlayers := model.numLayers_lt
  unfold SoundStages
  rw [partitions_iff (by omega) hword, and_assoc]
  refine and_congr_right fun _ => and_congr_right fun hsum => ?_
  have hpair : ∀ li src, model.kvShareSrc[li]? = some (some src) →
      ((∃ r ∈ layerRanges 0 split, (r.1 ≤ src ∧ src < r.2) ∧ r.1 ≤ li ∧ li < r.2) ↔
        ∀ k, ¬ (src < (split.take k).sum ∧ (split.take k).sum ≤ li)) := by
    intro li src hshare
    have hsource := LayeredModel.source_lt hshare
    have hsame : (∃ r ∈ layerRanges 0 split, (r.1 ≤ src ∧ src < r.2) ∧ r.1 ≤ li ∧ li < r.2) ↔
        ∀ k, ¬ (src < 0 + (split.take k).sum ∧ 0 + (split.take k).sum ≤ li) :=
      same_stage_iff (by omega) (Nat.zero_le _) (Nat.le_of_lt hsource.1) (by omega)
    simpa only [Nat.zero_add] using hsame
  constructor
  · intro h li src hshare
    exact (hpair li src hshare).mp (h li src hshare)
  · intro h li src hshare
    exact (hpair li src hshare).mpr (h li src hshare)

/-- The split that ends at the sharing boundary is sound. -/
theorem boundarySplit_sound {model : LayeredModel} (hb : model.ppKvShareBoundary = some b) (hgroups : 0 < groups)
    (hle : groups ≤ b) :
    SoundStages model (layerRanges 0 (evenSplit b groups ++ [model.numLayers - b])) := by
  have hlt := LayeredModel.boundary_lt hb
  have hlayers := model.numLayers_lt
  have hsum := evenSplit_sum b hgroups
  rw [soundStages_iff]
  · refine ⟨?_, ?_, ?_⟩
    · rw [List.forall_mem_append]
      refine ⟨evenSplit_pos hgroups hle, fun count hcount => ?_⟩
      rw [List.mem_singleton.mp hcount]
      omega
    · rw [List.sum_append, hsum, List.sum_singleton]
      omega
    · rintro li src hshare k ⟨hbehind, hbefore⟩
      have hsource := LayeredModel.source_lt hshare
      have hboundary := LayeredModel.boundary_le hb hshare
      rw [List.take_append, evenSplit_length, List.sum_append] at hbehind hbefore
      by_cases hk : k ≤ groups
      · have htake : ((evenSplit b groups).take k).sum ≤ b := by
          have hparts : ((evenSplit b groups).take k).sum + ((evenSplit b groups).drop k).sum =
              (evenSplit b groups).sum := by
            rw [← List.sum_append, List.take_append_drop]
          omega
        rw [Nat.sub_eq_zero_of_le hk, List.take_zero, List.sum_nil] at hbehind
        omega
      · rw [List.take_of_length_le (by rw [evenSplit_length]; omega), hsum,
          List.take_of_length_le (by rw [List.length_singleton]; omega), List.sum_singleton]
          at hbefore
        omega
  · rw [List.forall_mem_append]
    refine ⟨evenSplit_word b (by omega), fun count hcount => ?_⟩
    rw [List.mem_singleton.mp hcount]
    omega

/-- A resolved split has a count for each group, and its stages are sound exactly on the
inputs that fit. -/
theorem resolveSplit_spec {model : LayeredModel}
    (h : resolveSplit model.numLayers overrideSplit model.ppKvShareBoundary nGroups = .ok split) :
    split.length = nGroups ∧
      (SoundStages model (layerRanges 0 split) ↔ SplitFits model overrideSplit nGroups) := by
  have hlayers := model.numLayers_lt
  unfold resolveSplit at h
  cases overrideSplit with
  | some s =>
    dsimp only at h
    split at h
    · cases h
    · rename_i hlen
      split at h
      · cases h
      · cases h
        refine ⟨by rw [List.length_map]; exact Decidable.not_not.mp hlen, ?_⟩
        exact soundStages_iff model fun count hcount => by
          obtain ⟨w, -, rfl⟩ := List.mem_map.mp hcount
          exact w.toNat_lt
  | none =>
    cases hb : model.ppKvShareBoundary with
    | some b =>
      have hlt := LayeredModel.boundary_lt hb
      have hfits : SplitFits model none nGroups := fun hnone => by rw [hb] at hnone; cases hnone
      rw [hb] at h
      dsimp only at h
      split at h
      · rename_i hone
        cases h
        refine ⟨hone.symm, iff_of_true ?_ hfits⟩
        rw [soundStages_iff model (by simpa using (by omega : model.numLayers < 2 ^ 64))]
        refine ⟨by simpa using (by omega : 0 < model.numLayers), List.sum_singleton, ?_⟩
        rintro li src hshare k ⟨hbehind, hbefore⟩
        have hsource := LayeredModel.source_lt hshare
        cases k with
        | zero => simp at hbehind
        | succ k =>
          simp at hbefore
          omega
      · rename_i hone
        split at h
        · cases h
        · by_cases hzero : nGroups = 0
          · rw [if_pos hzero, if_pos (by omega)] at h
            cases h
          · rw [if_neg hzero] at h
            by_cases hfew : b < nGroups - 1
            · rw [if_pos hfew] at h
              cases h
            · rw [if_neg hfew] at h
              cases h
              refine ⟨?_, iff_of_true (boundarySplit_sound hb (by omega) (by omega)) hfits⟩
              rw [List.length_append, evenSplit_length, List.length_singleton]
              omega
    | none =>
      rw [hb] at h
      dsimp only at h
      split at h
      · cases h
      · rename_i hgroups
        cases h
        refine ⟨evenSplit_length _ _, ?_⟩
        rw [soundStages_iff model (evenSplit_word _ hlayers)]
        constructor
        · rintro ⟨hpos, -⟩ -
          refine Nat.le_of_not_lt fun hfew => ?_
          exact Nat.lt_irrefl 0 (hpos 0 (evenSplit_zero hfew))
        · intro hfits
          refine ⟨evenSplit_pos (by omega) (hfits hb), evenSplit_sum _ (by omega), ?_⟩
          intro li src hshare
          exact absurd hshare (LayeredModel.not_shared hb li src)

/-- One range of all layers. -/
theorem whole_sound_iff (model : LayeredModel) :
    SoundStages model [(0, model.numLayers)] ↔ 0 < model.numLayers := by
  constructor
  · rintro ⟨⟨hpos, -⟩, -⟩
    exact hpos _ (List.mem_singleton_self _)
  · intro hpos
    refine ⟨⟨?_, ?_⟩, ?_⟩
    · intro r hr
      rw [List.mem_singleton.mp hr]
      exact hpos
    · rw [List.flatMap_singleton, span_zero]
    · intro li src hshare
      have hsource := LayeredModel.source_lt hshare
      exact ⟨_, List.mem_singleton_self _, ⟨Nat.zero_le _, by dsimp only; omega⟩,
        Nat.zero_le _, hsource.2⟩

/-- Ranges of as many workers as the split has counts. -/
theorem ranges_of_split {α : Type} (workers : List α) (h : split.length = workers.length) :
    (if split.isEmpty then workers.map fun _ => (0, 0) else layerRanges 0 split) =
      layerRanges 0 split := by
  cases split with
  | nil =>
    have hnone : workers = [] := List.length_eq_zero_iff.mp h.symm
    rw [hnone]
    rfl
  | cons count rest => rfl

/-- The stages of an accepted mesh are a partition of the layers that keeps shared KV
together exactly on the meshes that fit the model. -/
theorem topology_sound_iff (model : LayeredModel) (mesh : MeshMode) (deviceIds : List Int)
    (overrideSplit : Option (List UInt64))
    (h : topologyFromMesh mesh deviceIds model.numLayers overrideSplit model.ppKvShareBoundary =
      .ok topology) :
    (PartitionsLayers (topology.stageRanges model.numLayers) model.numLayers ∧
      KeepsSharedKv (topology.stageRanges model.numLayers) model.kvShareSrc) ↔
        MeshFits model mesh deviceIds overrideSplit := by
  change SoundStages model _ ↔ _
  have hresolve : ∀ {nGroups : Nat} {build : List Nat → Topology},
      (resolveSplit model.numLayers overrideSplit model.ppKvShareBoundary nGroups).map build =
        .ok topology →
      (∀ split, split.length = nGroups →
        (build split).stageRanges model.numLayers = layerRanges 0 split) →
      (SoundStages model (topology.stageRanges model.numLayers) ↔
        SplitFits model overrideSplit nGroups) := by
    intro nGroups build hmap hranges
    cases hsplit : resolveSplit model.numLayers overrideSplit model.ppKvShareBoundary nGroups with
    | error e =>
      rw [hsplit] at hmap
      cases hmap
    | ok split =>
      rw [hsplit] at hmap
      cases hmap
      obtain ⟨hlen, hspec⟩ := resolveSplit_spec hsplit
      rw [hranges split hlen]
      exact hspec
  cases mesh with
  | pp =>
    unfold topologyFromMesh at h
    match deviceIds with
    | [device] =>
      cases h
      exact whole_sound_iff model
    | [] => exact hresolve h fun split hlen => ranges_of_split _ hlen
    | first :: second :: rest => exact hresolve h fun split hlen => ranges_of_split _ hlen
  | tp world =>
    unfold topologyFromMesh at h
    dsimp only at h
    split at h
    · cases h
    · cases h
      exact whole_sound_iff model
  | hybrid ppSize tpSize =>
    unfold topologyFromMesh at h
    dsimp only at h
    split at h
    · cases h
    · refine hresolve h fun split hlen => ranges_of_split _ ?_
      rw [List.length_map, List.length_range]
      exact hlen

/-- Six layers, the last two of them shared: a sliding and a full one. -/
def sixLayers : LayeredModel := ⟨6, [512, 512, 0, 512, 512, 0], 2, rfl, by decide⟩

/-- The default split of the six layers over three devices. -/
theorem sixLayers_split :
    let topology := Topology.pp [0, 1, 2] [1, 1, 4]
    PartitionsLayers (topology.stageRanges 6) 6 ∧
      KeepsSharedKv (topology.stageRanges 6) sixLayers.kvShareSrc :=
  (topology_sound_iff sixLayers .pp [0, 1, 2] none rfl).mpr fun h => by cases h

/-- An override puts the shared layers 4 and 5 on another stage than their sources, and
four devices for two layers that share nothing have stages without layers. -/
theorem splits_apart :
    (∃ topology, topologyFromMesh .pp [0, 1] 6 (some [4, 2]) sixLayers.ppKvShareBoundary =
        .ok topology ∧ ¬ KeepsSharedKv (topology.stageRanges 6) sixLayers.kvShareSrc) ∧
      ∃ topology, topologyFromMesh .pp [0, 1, 2, 3] 2 none none = .ok topology ∧
        ¬ PartitionsLayers (topology.stageRanges 2) 2 := by
  constructor
  · refine ⟨.pp [0, 1] [4, 2], rfl, fun h => ?_⟩
    obtain ⟨r, hr, hsrc, hli⟩ := h 4 3 rfl
    have hranges : Topology.stageRanges 6 (.pp [0, 1] [4, 2]) = [(0, 4), (4, 6)] := rfl
    rw [hranges] at hr
    rcases List.mem_pair.mp hr with rfl | rfl <;> omega
  · refine ⟨.pp [0, 1, 2, 3] [1, 1, 0, 0], rfl, fun h => ?_⟩
    exact absurd (h.1 (2, 2) (by decide)) (by decide)

end Flambeau.Server
