import Mathlib.Data.List.Forall2
import Mathlib.Tactic.ByContra
import Flambeau.Runtime.SamplerSupport

namespace Flambeau.Runtime

/-- The order in which a hash map gives its entries. -/
structure HashOrder where
  iter : List (Nat × Nat) → List (Nat × Nat)
  perm : ∀ l, (iter l).Perm l

namespace Sampling

/-- `apply_penalty_kernel`. -/
def applyPenaltyKernel (mode : Sampling) (logits : List F32) (counts : List (Nat × Nat)) : List F32 :=
  counts.foldl (fun ls p => ls.modify p.1 (mode.penalize · p.2)) logits

/-- `apply_penalties`, which counts the history in a hash map. -/
def applyPenaltiesOneShot (O : HashOrder) (mode : Sampling) (logits : List F32) (history : List Nat) :
    List F32 :=
  if !mode.hasPenalties || history.isEmpty then logits
  else mode.applyPenaltyKernel logits (O.iter (history.eraseDups.map fun t => (t, history.count t)))

end Sampling

/-- `sample`. -/
def sample (U : UnstableDesc) (E : ExpF32) (O : HashOrder) (logits : List F32) (mode : Sampling)
    (history : List Nat) (rng : Rng) : Nat × Rng :=
  let scratch := mode.applyLogitBias (mode.applyPenaltiesOneShot O logits history)
  if mode.isGreedy then (argmax scratch, rng)
  else
    let (r, rng) := rng.nextF32
    (mode.sampleStochastic U E scratch r, rng)

namespace Sampling

/-- The settings are numbers, the temperature is above zero where it is used. -/
structure Numbers (mode : Sampling) : Prop where
  temperature : mode.isGreedy = true ∨ ∃ t, mode.temperature = .fin t ∧ 0 < t
  repetition : ∃ q, mode.repetitionPenalty = .fin q
  presence : ∃ q, mode.presencePenalty = .fin q
  frequency : ∃ q, mode.frequencyPenalty = .fin q
  bias : ∀ bias, mode.logitBias = some bias → ∀ p ∈ bias, ∃ q, p.2 = .fin q

/-- What became of a logit: a number still, minus infinity still. -/
def Adjusted (v w : F32) : Prop := (w = .negInf ∧ v = .negInf) ∨ ∃ a b, w = .fin a ∧ v = .fin b

theorem Adjusted.self {v : F32} (h : v.Logit) : Adjusted v v := by
  cases v with
  | nan => exact h.elim
  | posInf => exact h.elim
  | negInf => exact .inl ⟨rfl, rfl⟩
  | fin q => exact .inr ⟨q, q, rfl, rfl⟩

theorem Adjusted.logit {v w : F32} (h : Adjusted v w) : w.Logit := by
  rcases h with ⟨rfl, -⟩ | ⟨a, b, rfl, -⟩ <;> trivial

theorem Adjusted.add {v w : F32} (h : Adjusted v w) (q : Rat) : Adjusted v (w.add (.fin q)) := by
  rcases h with ⟨rfl, hv⟩ | ⟨a, b, rfl, hv⟩
  · exact .inl ⟨rfl, hv⟩
  · exact .inr ⟨a + q, b, rfl, hv⟩

theorem Adjusted.scale {v w : F32} (h : Adjusted v w) {q : Rat} (hq : 0 < q) :
    Adjusted v (if F32.lt (.fin 0) w then w.div (.fin q) else w.mul (.fin q)) := by
  have hne : q ≠ 0 := by grind
  rcases h with ⟨rfl, hv⟩ | ⟨a, b, rfl, hv⟩
  · refine .inl ⟨?_, hv⟩
    have hlt : F32.lt (.fin 0) .negInf = false := rfl
    rw [hlt]
    simp [F32.mul, F32.infTimes, hne, hq]
  · split
    · exact .inr ⟨a / q, b, by simp [F32.div, hne], hv⟩
    · exact .inr ⟨a * q, b, rfl, hv⟩

theorem Numbers.penalize {mode : Sampling} (hmode : mode.Numbers) {v w : F32} (h : Adjusted v w)
    (count : Nat) : Adjusted v (mode.penalize w count) := by
  obtain ⟨rep, hrep⟩ := hmode.repetition
  obtain ⟨presence, hpresence⟩ := hmode.presence
  obtain ⟨frequency, hfrequency⟩ := hmode.frequency
  have hscaled : Adjusted v (if (mode.repetitionPenalty != .fin 1 &&
      F32.lt (.fin 0) mode.repetitionPenalty) = true then
        (if F32.lt (.fin 0) w then w.div mode.repetitionPenalty else w.mul mode.repetitionPenalty) else w) := by
    split
    · rename_i hused
      rw [hrep] at hused ⊢
      refine h.scale ?_
      have hlt := (Bool.and_eq_true_iff.mp hused).2
      simpa [F32.lt] using hlt
    · exact h
  unfold Sampling.penalize
  dsimp only
  generalize (if (mode.repetitionPenalty != .fin 1 && F32.lt (.fin 0) mode.repetitionPenalty) = true then
    (if F32.lt (.fin 0) w then w.div mode.repetitionPenalty else w.mul mode.repetitionPenalty) else w) = scaled
    at hscaled
  have hpresent : Adjusted v
      (if (mode.presencePenalty != .fin 0) = true then scaled.sub mode.presencePenalty else scaled) := by
    split
    · rw [hpresence]
      exact hscaled.add (-presence)
    · exact hscaled
  split
  · rw [hfrequency]
    exact hpresent.add (-(frequency * count))
  · exact hpresent

/-- The adjusted logits, one for each. -/
def AllAdjusted (logits adjusted : List F32) : Prop := List.Forall₂ Adjusted logits adjusted

theorem AllAdjusted.self (h : ∀ v ∈ logits, F32.Logit v) : AllAdjusted logits logits :=
  List.forall₂_same.mpr fun v hv => Adjusted.self (h v hv)

theorem AllAdjusted.modify {f : F32 → F32} (h : AllAdjusted logits adjusted)
    (hf : ∀ v w, Adjusted v w → Adjusted v (f w)) (j : Nat) : AllAdjusted logits (adjusted.modify j f) := by
  induction h generalizing j with
  | nil =>
    cases j <;> exact .nil
  | cons hvw htail ih =>
    cases j with
    | zero => exact .cons (hf _ _ hvw) htail
    | succ j => exact .cons hvw (ih j)

theorem AllAdjusted.kernel {mode : Sampling} (hmode : mode.Numbers) (h : AllAdjusted logits adjusted)
    (counts : List (Nat × Nat)) : AllAdjusted logits (mode.applyPenaltyKernel adjusted counts) := by
  unfold applyPenaltyKernel
  induction counts generalizing adjusted with
  | nil => exact h
  | cons p counts ih => exact ih (h.modify (fun _ _ hvw => hmode.penalize hvw p.2) p.1)

theorem AllAdjusted.bias {mode : Sampling} (hmode : mode.Numbers) (h : AllAdjusted logits adjusted) :
    AllAdjusted logits (mode.applyLogitBias adjusted) := by
  unfold applyLogitBias
  split
  · exact h
  · rename_i bias hbias
    have hfinite := hmode.bias bias hbias
    clear hbias
    induction bias generalizing adjusted with
    | nil => exact h
    | cons p bias ih =>
      obtain ⟨q, hq⟩ := hfinite p List.mem_cons_self
      refine ih (h.modify (fun _ _ hvw => ?_) p.1) fun p' hp' => hfinite p' (List.mem_cons_of_mem _ hp')
      rw [hq]
      exact hvw.add q

theorem AllAdjusted.view {mode : Sampling} (hmode : mode.Numbers) (h : ∀ v ∈ logits, F32.Logit v)
    (history : List Nat) : AllAdjusted logits (mode.view logits history) := by
  unfold Sampling.view
  dsimp only
  split
  · exact ((AllAdjusted.self h).kernel hmode _).bias hmode
  · exact (AllAdjusted.self h).bias hmode

theorem AllAdjusted.oneShot {mode : Sampling} (hmode : mode.Numbers) (h : ∀ v ∈ logits, F32.Logit v)
    (O : HashOrder) (history : List Nat) :
    AllAdjusted logits (mode.applyLogitBias (mode.applyPenaltiesOneShot O logits history)) := by
  unfold applyPenaltiesOneShot
  split
  · exact (AllAdjusted.self h).bias hmode
  · exact ((AllAdjusted.self h).kernel hmode _).bias hmode

theorem AllAdjusted.number (h : AllAdjusted logits adjusted) : ∀ w ∈ adjusted, F32.Logit w := by
  induction h with
  | nil => exact fun _ hw => absurd hw List.not_mem_nil
  | cons hvw htail ih =>
    intro w hw
    rcases List.mem_cons.mp hw with rfl | hw
    · exact hvw.logit
    · exact ih w hw

/-- A position holds a number after the adjustments where it held one before. -/
theorem AllAdjusted.at {logits adjusted : List F32} (h : AllAdjusted logits adjusted) (i : Nat) :
    (∃ a, adjusted[i]? = some (.fin a)) ↔ ∃ b, logits[i]? = some (.fin b) := by
  induction h generalizing i with
  | nil => simp
  | cons hvw htail ih =>
    cases i with
    | zero =>
      rcases hvw with ⟨rfl, rfl⟩ | ⟨a, b, rfl, rfl⟩ <;> simp
    | succ i => simpa using ih i

theorem AllAdjusted.masked {logits adjusted : List F32} (h : AllAdjusted logits adjusted) (i : Nat) :
    adjusted[i]? = some .negInf ↔ logits[i]? = some .negInf := by
  induction h generalizing i with
  | nil => simp
  | cons hvw htail ih =>
    cases i with
    | zero => rcases hvw with ⟨rfl, rfl⟩ | ⟨a, b, rfl, rfl⟩ <;> simp
    | succ i => simpa using ih i

/-- The token that both entry points draw from their adjusted logits. -/
def draw (U : UnstableDesc) (E : ExpF32) (mode : Sampling) (adjusted : List F32) (r : Rat) : Nat :=
  if mode.isGreedy then argmax adjusted else mode.sampleStochastic U E adjusted r

/-- The draw falls on a sorted entry, off zero, or on a first entry that is not masked. -/
def DrawsUnmasked (mode : Sampling) (logits : List F32) (r : Rat) : Prop :=
  mode.isGreedy = true ∨ mode.anyFilter = true ∨ r ≠ 0 ∨ logits[0]? ≠ some .negInf

/-- A draw of zero over the unsorted entries is the first one. -/
theorem sampleStochastic_zero (U : UnstableDesc) (E : ExpF32) {mode : Sampling} {t : Rat}
    (htemp : mode.temperature = .fin t) (hpos : 0 < t) (h : ∀ v ∈ logits, F32.Logit v)
    (hsome : .fin q ∈ logits) (hfilter : mode.anyFilter = false) :
    mode.sampleStochastic U E logits 0 = 0 := by
  have hinv : F32.div (.fin 1) (.fin t) = .fin (1 / t) := by
    have hne : t ≠ 0 := by grind
    simp [F32.div, hne]
  have hle : F32.le (.fin t) (.fin 0) = false := by simp [F32.le, F32.lt, hpos]
  have hscale : 0 < 1 / t := by
    rw [Rat.lt_div_iff hpos, Rat.zero_mul]
    decide
  obtain ⟨hweighs, -⟩ := softmax_weighs E hscale h hsome
  have hlen : (softmax E (.fin (1 / t)) logits).length = logits.length := by
    unfold softmax
    dsimp only
    split <;> simp
  unfold sampleStochastic
  rw [htemp, hle, hfilter]
  simp only [Bool.false_eq_true, if_false, hinv]
  cases hsoft : softmax E (.fin (1 / t)) logits with
  | nil =>
    rw [hsoft] at hlen
    rw [List.length_eq_zero_iff.mp hlen.symm] at hsome
    cases hsome
  | cons w ws =>
    rw [hsoft] at hweighs
    obtain ⟨q, hq, hnonneg, -⟩ := hweighs (0, w) List.mem_cons_self
    unfold multinomial
    rw [weighs_sum hweighs]
    have hzero : F32.mul (.fin 0) (.fin (mass (((w :: ws).zipIdx).map fun p => (p.2, p.1)))) = .fin 0 := by
      simp [F32.mul]
    rw [hzero]
    have hpick := @pick_first _ 0 ((ws.zipIdx 1).map fun p => (p.2, p.1)) hnonneg
    rw [← hq] at hpick
    rw [List.zipIdx_cons, List.map_cons, hpick]

/-- The draw gives a masked token iff it is a zero over unsorted entries, the first one
masked. -/
theorem draw_unmasked (U : UnstableDesc) (E : ExpF32) {mode : Sampling} {logits adjusted : List F32}
    (hmode : mode.Numbers) (h : AllAdjusted logits adjusted) (hsome : .fin q ∈ logits)
    (hr : 0 ≤ r) (hr' : r < 1) :
    logits[mode.draw U E adjusted r]? ≠ some .negInf ↔ mode.DrawsUnmasked logits r := by
  obtain ⟨i, hi⟩ := List.getElem?_of_mem hsome
  obtain ⟨a, ha⟩ := (h.at i).mpr ⟨q, hi⟩
  have hsome' := List.mem_of_getElem? ha
  have habove : (∃ a, adjusted[mode.draw U E adjusted r]? = some (.fin a)) →
      logits[mode.draw U E adjusted r]? ≠ some .negInf := fun hfin hmasked => by
    obtain ⟨b, hb⟩ := (h.at _).mp hfin
    rw [hb] at hmasked
    cases hmasked
  unfold DrawsUnmasked
  by_cases hgreedy : mode.isGreedy = true
  · refine ⟨fun _ => .inl hgreedy, fun _ => habove ?_⟩
    unfold draw
    rw [if_pos hgreedy]
    obtain ⟨a, ha, -⟩ := argmax_above h.number hsome'
    exact ⟨a, ha⟩
  · obtain ⟨t, htemp, hpos⟩ := hmode.temperature.resolve_left hgreedy
    have hdraw : mode.draw U E adjusted r = mode.sampleStochastic U E adjusted r := if_neg hgreedy
    constructor
    · intro hunmasked
      refine .inr ?_
      by_contra hnone
      simp only [not_or, not_not, Bool.not_eq_true] at hnone
      obtain ⟨hfilter, rfl, hfirst⟩ := hnone
      rw [hdraw, sampleStochastic_zero U E htemp hpos h.number hsome' hfilter] at hunmasked
      exact hunmasked hfirst
    · intro hok
      refine habove ?_
      rw [hdraw]
      refine sampleStochastic_above U E htemp hpos h.number hsome' hr hr' ?_
      rcases hok.resolve_left hgreedy with hfilter | hzero | hfirst
      · exact .inl hfilter
      · exact .inr (.inl (by grind))
      · exact .inr (.inr fun hmasked => hfirst ((h.masked 0).mp hmasked))

theorem no_topK (k : Nat) (h : none = some k) : 0 < k := by
  cases h

/-- Temperature one, no filter. -/
def plain : Sampling := ⟨.fin 1, none, none, none, .fin 1, .fin 0, .fin 0, none, no_topK⟩

theorem plain_numbers : plain.Numbers :=
  ⟨.inr ⟨1, rfl, by decide⟩, ⟨1, rfl⟩, ⟨0, rfl⟩, ⟨0, rfl⟩, fun _ h => by cases h⟩

/-- A hash map read in its order of insertion. -/
def insertionOrder : HashOrder := ⟨id, fun _ => .refl _⟩

end Sampling
end Flambeau.Runtime
