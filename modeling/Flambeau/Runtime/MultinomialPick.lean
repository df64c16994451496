import Flambeau.Runtime.Sampling
import Mathlib.Algebra.Order.Field.Basic
import Mathlib.Data.List.Sort
import Mathlib.MeasureTheory.Measure.Lebesgue.Basic

/-! The sampler and the distribution it reports, over exact numbers. -/

namespace Flambeau.Runtime.Exact

variable {K : Type} [Field K] [LinearOrder K]

/-- `Sampling`; a `top_k` of zero is dropped where one is built. -/
structure Sampling (K : Type) where
  temperature : K
  topP : Option K
  topK : Option Nat
  minP : Option K
  repetitionPenalty : K
  presencePenalty : K
  frequencyPenalty : K
  /-- The map's entries. -/
  logitBias : Option (List (Nat × K))
  topKPos : ∀ k, topK = some k → 0 < k

/-- `select_nth_unstable_by` and `sort_unstable_by` with the larger value first: equal values may come
in any order. -/
structure UnstableDesc (K : Type) [LinearOrder K] where
  select : Nat → List (Nat × K) → List (Nat × K)
  sort : List (Nat × K) → List (Nat × K)
  select_perm : ∀ k l, (select k l).Perm l
  sort_perm : ∀ l, (sort l).Perm l
  select_spec : ∀ k l, ∀ a ∈ (select k l).take k, ∀ b ∈ (select k l).drop k, b.2 ≤ a.2
  sort_spec : ∀ l, (sort l).Pairwise fun a b => b.2 ≤ a.2

/-- The order in which a hash map gives its entries. -/
structure MapOrder where
  entries : List (Nat × Nat) → List (Nat × Nat)
  perm : ∀ l, (entries l).Perm l

namespace Sampling

def isGreedy (mode : Sampling K) : Bool := mode.temperature ≤ 0

def hasPenalties (mode : Sampling K) : Bool :=
  mode.repetitionPenalty != 1 || mode.presencePenalty != 0 || mode.frequencyPenalty != 0

/-- One token's turn in `apply_penalty_kernel`. -/
def penalize (mode : Sampling K) (l : K) (count : Nat) : K :=
  let l :=
    if mode.repetitionPenalty ≠ 1 ∧ 0 < mode.repetitionPenalty then
      if 0 < l then l / mode.repetitionPenalty else l * mode.repetitionPenalty
    else l
  let l := if mode.presencePenalty ≠ 0 then l - mode.presencePenalty else l
  if mode.frequencyPenalty ≠ 0 then l - mode.frequencyPenalty * count else l

/-- `apply_penalty_kernel`. -/
def penaltyKernel (mode : Sampling K) (logits : List K) (counts : List (Nat × Nat)) : List K :=
  counts.foldl (fun ls p => ls.modify p.1 (mode.penalize · p.2)) logits

/-- `apply_logit_bias`. -/
def applyLogitBias (mode : Sampling K) (logits : List K) : List K :=
  match mode.logitBias with
  | none => logits
  | some bias => bias.foldl (fun ls p => ls.modify p.1 (· + p.2)) logits

/-- The logits behind the penalties and the bias, the tokens of the history counted in `counts`. -/
def viewWith (mode : Sampling K) (logits : List K) (history : List Nat) (counts : List (Nat × Nat)) : List K :=
  mode.applyLogitBias (if mode.hasPenalties && !history.isEmpty then mode.penaltyKernel logits counts else logits)

/-- The logits that `Sampler::sample` draws from. -/
def view (mode : Sampling K) (logits : List K) (history : List Nat) : List K :=
  mode.viewWith logits history (Runtime.Sampling.buildHistoryCounts history)

/-- The counts of the map in `apply_penalties`. -/
def mapCounts (H : MapOrder) (history : List Nat) : List (Nat × Nat) :=
  H.entries (history.eraseDups.map fun t => (t, history.count t))

def anyFilter (mode : Sampling K) : Bool := mode.topK.isSome || mode.topP.isSome || mode.minP.isSome

/-- The largest of the scaled logits. -/
def maxScaled (invT : K) : List K → K
  | [] => 0
  | v :: logits => logits.foldl (fun m v => if m < v * invT then v * invT else m) (v * invT)

/-- The softmax weights, normalised where their sum is above zero. -/
def softmax (exp : K → K) (invT : K) (logits : List K) : List K :=
  let weights := logits.map fun v => exp (v * invT - maxScaled invT logits)
  if 0 < weights.sum then weights.map (· / weights.sum) else weights

def invT (mode : Sampling K) : K := if mode.temperature ≤ 0 then 1 else 1 / mode.temperature

/-- Each token with its weight. -/
def pairs (exp : K → K) (mode : Sampling K) (logits : List K) : List (Nat × K) :=
  (softmax exp mode.invT logits).zipIdx.map fun p => (p.2, p.1)

/-- The partial sort to the `k` largest. -/
def truncated (U : UnstableDesc K) (k : Option Nat) (pairs : List (Nat × K)) : List (Nat × K) :=
  match k with
  | none => pairs
  | some k =>
    let k := min k pairs.length
    if 0 < k ∧ k < pairs.length then (U.select k pairs).take k else pairs

def topKStop (mode : Sampling K) (sorted : List (Nat × K)) : Nat :=
  match mode.topK with
  | some k => min sorted.length k
  | none => sorted.length

/-- The smallest front whose weights reach `p`. -/
def topPEnd (p : K) (cum : K) : List (Nat × K) → Nat
  | [] => 0
  | (_, w) :: rest => if p ≤ cum + w then 1 else topPEnd p (cum + w) rest + 1

def topPStop (mode : Sampling K) (sorted : List (Nat × K)) (stop : Nat) : Nat :=
  match mode.topP with
  | some p => if p < 1 ∧ 0 < p then topPEnd p 0 (sorted.take stop) else stop
  | none => stop

/-- At least the first entry is kept. -/
def minPStop (mode : Sampling K) (sorted : List (Nat × K)) (stop : Nat) : Nat :=
  match mode.minP, sorted with
  | some minP, top :: _ =>
    if 0 < minP then max ((sorted.take stop).findIdx fun q => q.2 < top.2 * minP) 1 else stop
  | _, _ => stop

/-- The filters' cut through the sorted entries. -/
def cut (mode : Sampling K) (sorted : List (Nat × K)) : Nat :=
  mode.minPStop sorted (mode.topPStop sorted (mode.topKStop sorted))

/-- `TOP_K_AUTO_CAP`. -/
def topKAutoCap : Nat := 2048

/-- `effective_top_k`. -/
def effectiveTopK (mode : Sampling K) : Option Nat :=
  match mode.topK with
  | some k => some k
  | none => if mode.topP.isSome || mode.minP.isSome then some topKAutoCap else none

/-- The entries that `sample_stochastic` picks from. -/
def sampleKept (U : UnstableDesc K) (mode : Sampling K) (pairs : List (Nat × K)) : List (Nat × K) :=
  if mode.anyFilter then
    let sorted := U.sort (truncated U mode.effectiveTopK pairs)
    sorted.take (mode.cut sorted)
  else pairs

end Sampling

/-- `argmax`: the first of the largest, 0 where there is none. -/
def argmax : List K → Nat
  | [] => 0
  | v :: logits =>
    ((logits.zipIdx 1).foldl (fun (best : Nat × K) p => if best.2 < p.1 then (p.2, p.1) else best) (0, v)).1

/-- The pick over the kept entries: the first whose weight brings `u` down to zero. -/
def pick (u : K) : List (Nat × K) → Option Nat
  | [] => none
  | (id, p) :: kept => if u - p ≤ 0 then some id else pick (u - p) kept

def mass (pairs : List (Nat × K)) : K := (pairs.map (·.2)).sum

/-- The multinomial pick, the last entry where the weights run out. -/
def multinomial (r : K) (kept : List (Nat × K)) : Nat :=
  match pick (r * mass kept) kept with
  | some id => id
  | none => (kept.getLast?.map (·.1)).getD 0

/-- `sample_stochastic`, with the number the generator gives. -/
def sampleStochastic (U : UnstableDesc K) (exp : K → K) (mode : Sampling K) (logits : List K) (r : K) : Nat :=
  multinomial r (mode.sampleKept U (mode.pairs exp logits))

/-- `Sampler::sample`, with the number the generator gives. -/
def sample (U : UnstableDesc K) (exp : K → K) (mode : Sampling K) (logits : List K) (history : List Nat) (r : K) : Nat :=
  let view := mode.view logits history
  if mode.isGreedy then argmax view else sampleStochastic U exp mode view r

/-- The last lines of `build_distribution`. -/
def renormalised (pairs : List (Nat × K)) : List (Nat × K) :=
  if 0 < mass pairs then pairs.map fun p => (p.1, p.2 / mass pairs) else pairs

/-- `build_distribution`. -/
def buildDistribution (U : UnstableDesc K) (H : MapOrder) (exp : K → K) (logits : List K) (mode : Sampling K)
    (history : List Nat) : List (Nat × K) :=
  let view := mode.viewWith logits history (Sampling.mapCounts H history)
  if mode.isGreedy then [(argmax view, 1)]
  else
    let pairs := mode.pairs exp view
    if !mode.anyFilter then pairs
    else
      let sorted := U.sort (Sampling.truncated U mode.topK pairs)
      renormalised (sorted.take (mode.cut sorted))

end Flambeau.Runtime.Exact

namespace Flambeau.Runtime.Exact
open MeasureTheory

/-- Entries of tokens that are all different, with weights above zero. -/
structure Weighted (kept : List (Nat × ℝ)) : Prop where
  ids : (kept.map (·.1)).Nodup
  pos : ∀ p ∈ kept, 0 < p.2

theorem mass_nil : mass ([] : List (Nat × ℝ)) = 0 := rfl

theorem mass_cons (p : Nat × ℝ) (kept : List (Nat × ℝ)) : mass (p :: kept) = p.2 + mass kept := by
  rw [mass, List.map_cons, List.sum_cons, mass]

theorem mass_append (front back : List (Nat × ℝ)) : mass (front ++ back) = mass front + mass back := by
  rw [mass, List.map_append, List.sum_append, mass, mass]

namespace Weighted

theorem sublist (h : Weighted pairs) (hs : kept.Sublist pairs) : Weighted kept where
  ids := h.ids.sublist (hs.map _)
  pos := fun p hp => h.pos p (hs.subset hp)

theorem perm (h : Weighted pairs) (hp : kept.Perm pairs) : Weighted kept where
  ids := (hp.map _).nodup_iff.mpr h.ids
  pos := fun p hp' => h.pos p (hp.mem_iff.mp hp')

theorem mass_nonneg (h : Weighted kept) : 0 ≤ mass kept := by
  refine List.sum_nonneg ?_
  intro w hw
  obtain ⟨p, hp, rfl⟩ := List.mem_map.mp hw
  exact le_of_lt (h.pos p hp)

theorem mass_pos (h : Weighted kept) (hne : kept ≠ []) : 0 < mass kept := by
  obtain ⟨p, rest, rfl⟩ := List.exists_cons_of_ne_nil hne
  have hrest : Weighted rest := h.sublist (List.sublist_cons_self p rest)
  have hnonneg := hrest.mass_nonneg
  have hpos := h.pos p List.mem_cons_self
  rw [mass_cons]
  linarith

end Weighted

/-- Up to the sum of the weights an entry is picked. -/
theorem pick_some {kept : List (Nat × ℝ)} (hne : kept ≠ []) (hle : u ≤ mass kept) :
    ∃ id, pick u kept = some id ∧ id ∈ kept.map (·.1) := by
  induction kept generalizing u with
  | nil => exact absurd rfl hne
  | cons p kept ih =>
    rw [mass_cons] at hle
    rw [pick]
    by_cases hu : u - p.2 ≤ 0
    · rw [if_pos hu]
      exact ⟨p.1, rfl, List.mem_cons_self⟩
    · rw [if_neg hu]
      have hne' : kept ≠ [] := by
        rintro rfl
        rw [mass_nil] at hle
        linarith
      obtain ⟨id, hid, hmem⟩ := ih hne' (u := u - p.2) (by linarith)
      exact ⟨id, hid, List.mem_cons_of_mem _ hmem⟩

/-- The entry behind `front` is picked from the sum of the weights in front of it on. -/
theorem pick_iff {front back : List (Nat × ℝ)} {p : Nat × ℝ} (h : Weighted (front ++ p :: back)) (u : ℝ) :
    pick u (front ++ p :: back) = some p.1 ↔ (front = [] ∨ mass front < u) ∧ u ≤ mass front + p.2 := by
  induction front generalizing u with
  | nil =>
    rw [List.nil_append, pick, mass_nil]
    have hnot : p.1 ∉ back.map (·.1) := (List.nodup_cons.mp h.ids).1
    by_cases hu : u - p.2 ≤ 0
    · rw [if_pos hu]
      exact iff_of_true rfl ⟨.inl rfl, by linarith⟩
    · rw [if_neg hu]
      refine iff_of_false ?_ fun hle => hu (by linarith [hle.2])
      intro hpick
      have hmem : ∀ (back : List (Nat × ℝ)) (v : ℝ) (id : Nat), pick v back = some id → id ∈ back.map (·.1) := by
        intro back
        induction back with
        | nil => exact fun _ _ hv => by cases hv
        | cons q back ih =>
          intro v id hv
          rw [pick] at hv
          split at hv
          · cases hv
            exact List.mem_cons_self
          · exact List.mem_cons_of_mem _ (ih _ _ hv)
      exact hnot (hmem back _ _ hpick)
  | cons q front ih =>
    have hrest : Weighted (front ++ p :: back) := h.sublist (List.sublist_cons_self q _)
    have hq := h.pos q List.mem_cons_self
    have hne : q.1 ≠ p.1 := by
      intro heq
      have hnot := (List.nodup_cons.mp h.ids).1
      exact hnot (List.mem_map.mpr ⟨p, List.mem_append_right front List.mem_cons_self, heq.symm⟩)
    have hfront : 0 ≤ mass front := (hrest.sublist (List.sublist_append_left front _)).mass_nonneg
    have hp := h.pos p (List.mem_append_right (q :: front) List.mem_cons_self)
    rw [List.cons_append, pick, mass_cons]
    by_cases hu : u - q.2 ≤ 0
    · rw [if_pos hu]
      refine iff_of_false (fun heq => hne (Option.some.inj heq)) ?_
      rintro ⟨hlow | hlow, -⟩
      · cases hlow
      · linarith
    · rw [if_neg hu, ih hrest]
      constructor
      · rintro ⟨hlow, hhigh⟩
        refine ⟨.inr ?_, by linarith⟩
        rcases hlow with rfl | hlow
        · rw [mass_nil]
          linarith
        · linarith
      · rintro ⟨hlow, hhigh⟩
        refine ⟨?_, by linarith⟩
        rcases hlow with hlow | hlow
        · cases hlow
        · exact .inr (by linarith)

/-- The draws that give the token behind `front`. -/
theorem multinomial_iff {front back : List (Nat × ℝ)} {p : Nat × ℝ} (h : Weighted (front ++ p :: back)) {x : ℝ}
    (hx : x < 1) : multinomial x (front ++ p :: back) = p.1 ↔
      (front = [] ∨ mass front < x * mass (front ++ p :: back)) ∧ x * mass (front ++ p :: back) ≤ mass front + p.2 := by
  have hne : front ++ p :: back ≠ [] := by
    intro hnil
    rw [List.append_eq_nil_iff] at hnil
    cases hnil.2
  have hmass := h.mass_pos hne
  obtain ⟨id, hid, -⟩ := pick_some hne (u := x * mass (front ++ p :: back)) (by nlinarith)
  rw [← pick_iff h, multinomial, hid]
  exact ⟨fun heq => congrArg some heq, fun heq => Option.some.inj heq⟩

theorem multinomial_mem {kept : List (Nat × ℝ)} (h : Weighted kept) (hne : kept ≠ []) {x : ℝ} (hx : x < 1) :
    multinomial x kept ∈ kept.map (·.1) := by
  have hmass := h.mass_pos hne
  obtain ⟨id, hid, hmem⟩ := pick_some hne (u := x * mass kept) (by nlinarith)
  rw [multinomial, hid]
  exact hmem

/-- The draws in [0, 1) that give a token. -/
def drawsOf (f : ℝ → Nat) (id : Nat) : Set ℝ := {x | (0 ≤ x ∧ x < 1) ∧ f x = id}

/-- A token is drawn as often as its weight says. -/
theorem multinomial_volume {kept : List (Nat × ℝ)} (h : Weighted kept) (hp : p ∈ kept) :
    volume (drawsOf (multinomial · kept) p.1) = ENNReal.ofReal (p.2 / mass kept) := by
  obtain ⟨front, back, rfl⟩ := List.append_of_mem hp
  have hne : front ++ p :: back ≠ [] := List.ne_nil_of_mem hp
  have hmass := h.mass_pos hne
  have hsplit : mass (front ++ p :: back) = mass front + (p.2 + mass back) := by rw [mass_append, mass_cons]
  have hfront : 0 ≤ mass front := (h.sublist (List.sublist_append_left front _)).mass_nonneg
  have hback : 0 ≤ mass back :=
    (h.sublist ((List.sublist_cons_self p back).trans (List.sublist_append_right front _))).mass_nonneg
  have hweight := h.pos p hp
  have hlower : Set.Ioo (mass front / mass (front ++ p :: back)) ((mass front + p.2) / mass (front ++ p :: back)) ⊆
      drawsOf (multinomial · (front ++ p :: back)) p.1 := by
    rintro x ⟨hlow, hhigh⟩
    rw [div_lt_iff₀ hmass] at hlow
    rw [lt_div_iff₀ hmass] at hhigh
    have hx : x < 1 := by
      by_contra hge
      nlinarith
    refine ⟨⟨?_, hx⟩, (multinomial_iff h hx).mpr ⟨.inr hlow, le_of_lt hhigh⟩⟩
    by_contra hneg
    nlinarith
  have hupper : drawsOf (multinomial · (front ++ p :: back)) p.1 ⊆
      Set.Icc (mass front / mass (front ++ p :: back)) ((mass front + p.2) / mass (front ++ p :: back)) := by
    rintro x ⟨⟨hnonneg, hx⟩, hdraw⟩
    obtain ⟨hlow, hhigh⟩ := (multinomial_iff h hx).mp hdraw
    refine ⟨?_, (le_div_iff₀ hmass).mpr hhigh⟩
    rw [div_le_iff₀ hmass]
    rcases hlow with rfl | hlow
    · rw [mass_nil]
      exact mul_nonneg hnonneg (le_of_lt hmass)
    · exact le_of_lt hlow
  have hwidth : (mass front + p.2) / mass (front ++ p :: back) - mass front / mass (front ++ p :: back) =
      p.2 / mass (front ++ p :: back) := by
    rw [← sub_div, add_sub_cancel_left]
  refine le_antisymm ?_ ?_
  · refine (measure_mono hupper).trans ?_
    rw [Real.volume_Icc, hwidth]
  · refine le_trans ?_ (measure_mono hlower)
    rw [Real.volume_Ioo, hwidth]

/-- Every token that is kept is drawn, and no other. -/
theorem multinomial_support {kept : List (Nat × ℝ)} (h : Weighted kept) (hne : kept ≠ []) (id : Nat) :
    id ∈ kept.map (·.1) ↔ ∃ x : ℝ, (0 ≤ x ∧ x < 1) ∧ multinomial x kept = id := by
  constructor
  · intro hid
    obtain ⟨p, hp, rfl⟩ := List.mem_map.mp hid
    have hvolume := multinomial_volume h hp
    have hpos : 0 < volume (drawsOf (multinomial · kept) p.1) := by
      rw [hvolume, ENNReal.ofReal_pos]
      exact div_pos (h.pos p hp) (h.mass_pos hne)
    obtain ⟨x, hx⟩ := nonempty_of_measure_ne_zero (ne_of_gt hpos)
    exact ⟨x, hx⟩
  · rintro ⟨x, ⟨-, hx⟩, rfl⟩
    exact multinomial_mem h hne hx

end Flambeau.Runtime.Exact
