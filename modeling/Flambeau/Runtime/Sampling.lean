import Mathlib

namespace Flambeau.Runtime

/-- An `f32`: finite values are exact numbers, the rest is the standard's. -/
inductive F32 where
  | nan
  | negInf
  | fin (q : Rat)
  | posInf
deriving DecidableEq

namespace F32

def ofNat (n : Nat) : F32 := .fin n

/-- `a < b`: false where one is not a number. -/
def lt : F32 → F32 → Bool
  | .negInf, .fin _ => true
  | .negInf, .posInf => true
  | .fin a, .fin b => decide (a < b)
  | .fin _, .posInf => true
  | _, _ => false

/-- `a <= b`. -/
def le : F32 → F32 → Bool
  | .nan, _ => false
  | _, .nan => false
  | a, b => !b.lt a

def neg : F32 → F32
  | .nan => .nan
  | .negInf => .posInf
  | .fin q => .fin (-q)
  | .posInf => .negInf

def add : F32 → F32 → F32
  | .fin a, .fin b => .fin (a + b)
  | .nan, _ => .nan
  | _, .nan => .nan
  | .posInf, .negInf => .nan
  | .negInf, .posInf => .nan
  | .posInf, _ => .posInf
  | _, .posInf => .posInf
  | .negInf, _ => .negInf
  | _, .negInf => .negInf

def sub (a b : F32) : F32 := a.add b.neg

/-- An infinity times a number. -/
def infTimes (inf : F32) (q : Rat) : F32 :=
  if q = 0 then .nan else if 0 < q then inf else inf.neg

def mul : F32 → F32 → F32
  | .fin a, .fin b => .fin (a * b)
  | .nan, _ => .nan
  | _, .nan => .nan
  | .fin a, inf => infTimes inf a
  | inf, .fin b => infTimes inf b
  | .posInf, b => b
  | .negInf, b => b.neg

/-- A zero is the positive one. -/
def div : F32 → F32 → F32
  | .nan, _ => .nan
  | _, .nan => .nan
  | .fin a, .fin b =>
    if b = 0 then (if a = 0 then .nan else if 0 < a then .posInf else .negInf) else .fin (a / b)
  | .fin _, _ => .fin 0
  | inf, .fin b => if b = 0 then inf else infTimes inf b
  | _, _ => .nan

def sum (ws : List F32) : F32 := ws.foldl add (.fin 0)

/-- Not a number and plus infinity excluded. -/
def Logit : F32 → Prop
  | .negInf => True
  | .fin _ => True
  | _ => False

end F32

/-- `f32::exp` on finite values, where it may round down to zero. -/
structure ExpF32 where
  fn : Rat → Rat
  nonneg : ∀ q, 0 ≤ fn q
  zero : fn 0 = 1

def ExpF32.exp (E : ExpF32) : F32 → F32
  | .nan => .nan
  | .negInf => .fin 0
  | .fin q => .fin (E.fn q)
  | .posInf => .posInf

/-- An `exp` of two steps. -/
def stepExp : ExpF32 where
  fn q := if q < 0 then 0 else 1
  nonneg q := by split <;> decide
  zero := by simp

/-- `select_nth_unstable_by` and `sort_unstable_by` with the larger value first:
equal values may come in any order. -/
structure UnstableDesc where
  select : Nat → List (Nat × F32) → List (Nat × F32)
  sort : List (Nat × F32) → List (Nat × F32)
  select_perm : ∀ k l, (select k l).Perm l
  sort_perm : ∀ l, (sort l).Perm l
  select_spec : ∀ k l, (∀ p ∈ l, p.2 ≠ .nan) →
    ∀ a ∈ (select k l).take k, ∀ b ∈ (select k l).drop k, a.2.lt b.2 = false
  sort_spec : ∀ l, (∀ p ∈ l, p.2 ≠ .nan) → (sort l).Pairwise fun a b => a.2.lt b.2 = false

/-- The larger value first, and not a number last. -/
def descLe (a b : Nat × F32) : Bool := a.2 != .nan && !a.2.lt b.2 || b.2 == .nan

theorem descLe_total (a b : Nat × F32) : (descLe a b || descLe b a) = true := by
  obtain ⟨i, x⟩ := a
  obtain ⟨j, y⟩ := b
  cases x <;> cases y <;> simp [descLe, F32.lt]
  grind

theorem descLe_trans (a b c : Nat × F32) (hab : descLe a b = true) (hbc : descLe b c = true) :
    descLe a c = true := by
  obtain ⟨i, x⟩ := a
  obtain ⟨j, y⟩ := b
  obtain ⟨k, z⟩ := c
  cases x <;> cases y <;> cases z <;> simp_all [descLe, F32.lt]
  grind

theorem descLe_lt {a b : Nat × F32} (h : descLe a b = true) (hb : b.2 ≠ .nan) :
    a.2.lt b.2 = false := by
  simp [descLe, hb] at h
  exact h.2

/-- A stable sort is one of the orders that the unstable ones may leave. -/
def stableDesc : UnstableDesc where
  select _ l := l.mergeSort descLe
  sort l := l.mergeSort descLe
  select_perm _ l := List.mergeSort_perm l descLe
  sort_perm l := List.mergeSort_perm l descLe
  select_spec k l hnan a ha b hb := by
    have hsorted := List.pairwise_mergeSort descLe_trans descLe_total l
    have hb' := (List.mergeSort_perm l descLe).mem_iff.mp (List.mem_of_mem_drop hb)
    rw [← List.take_append_drop k (l.mergeSort descLe), List.pairwise_append] at hsorted
    exact descLe_lt (hsorted.2.2 a ha b hb) (hnan b hb')
  sort_spec l hnan := by
    refine (List.pairwise_mergeSort descLe_trans descLe_total l).imp_of_mem ?_
    intro a b _ hb hle
    exact descLe_lt hle (hnan b ((List.mergeSort_perm l descLe).mem_iff.mp hb))

/-- `Sampling`, as `SamplingParams::from_parts` builds it: a `top_k` of zero is
dropped. -/
structure Sampling where
  temperature : F32
  topP : Option F32
  topK : Option Nat
  minP : Option F32
  repetitionPenalty : F32
  presencePenalty : F32
  frequencyPenalty : F32
  /-- The map's entries. -/
  logitBias : Option (List (Nat × F32))
  topKPos : ∀ k, topK = some k → 0 < k

namespace Sampling

/-- `Sampling::greedy`. -/
def greedy : Sampling :=
  ⟨.fin 0, none, none, none, .fin 1, .fin 0, .fin 0, none, fun _ h => by cases h⟩

def isGreedy (mode : Sampling) : Bool := mode.temperature.le (.fin 0)

def hasPenalties (mode : Sampling) : Bool :=
  mode.repetitionPenalty != .fin 1 || mode.presencePenalty != .fin 0 ||
    mode.frequencyPenalty != .fin 0

/-- One token's turn in `apply_penalty_kernel`. -/
def penalize (mode : Sampling) (l : F32) (count : Nat) : F32 :=
  let l :=
    if mode.repetitionPenalty != .fin 1 && F32.lt (.fin 0) mode.repetitionPenalty then
      if F32.lt (.fin 0) l then l.div mode.repetitionPenalty else l.mul mode.repetitionPenalty
    else l
  let l := if mode.presencePenalty != .fin 0 then l.sub mode.presencePenalty else l
  if mode.frequencyPenalty != .fin 0 then l.sub (mode.frequencyPenalty.mul (.ofNat count)) else l

/-- `build_history_counts`: each token of the history with its count. -/
def buildHistoryCounts (history : List Nat) : List (Nat × Nat) :=
  (history.mergeSort (· ≤ ·)).eraseDups.map fun t => (t, history.count t)

/-- `apply_penalties_with_scratch`. -/
def applyPenalties (mode : Sampling) (logits : List F32) (history : List Nat) : List F32 :=
  (buildHistoryCounts history).foldl (fun ls p => ls.modify p.1 (mode.penalize · p.2)) logits

/-- `apply_logit_bias`. -/
def applyLogitBias (mode : Sampling) (logits : List F32) : List F32 :=
  match mode.logitBias with
  | none => logits
  | some bias => bias.foldl (fun ls p => ls.modify p.1 (·.add p.2)) logits

/-- The logits that `Sampler::sample` draws from. -/
def view (mode : Sampling) (logits : List F32) (history : List Nat) : List F32 :=
  let needsPenalties := mode.hasPenalties && !history.isEmpty
  let penalized := if needsPenalties then mode.applyPenalties logits history else logits
  mode.applyLogitBias penalized

/-- `any_filter`. -/
def anyFilter (mode : Sampling) : Bool :=
  mode.topK.isSome || mode.topP.isSome || mode.minP.isSome

end Sampling

/-- `Rng`: xoshiro256**. -/
structure Rng where
  s0 : UInt64
  s1 : UInt64
  s2 : UInt64
  s3 : UInt64

namespace Rng

def rotateLeft (x : UInt64) (k : UInt64) : UInt64 := (x <<< k) ||| (x >>> (64 - k))

def splitMix (x : UInt64) : UInt64 :=
  let x := (x ^^^ (x >>> 30)) * 0xBF58476D1CE4E5B9
  (x ^^^ (x >>> 27)) * 0x94D049BB133111EB

def fromSeed (seed : UInt64) : Rng :=
  let x0 := splitMix (seed + 0x9E3779B97F4A7C15)
  let x1 := splitMix x0
  let x2 := splitMix x1
  let x3 := splitMix x2
  let out (x : UInt64) : UInt64 := x ^^^ (x >>> 31)
  if out x0 = 0 ∧ out x1 = 0 ∧ out x2 = 0 ∧ out x3 = 0 then ⟨1, 0, 0, 0⟩
  else ⟨out x0, out x1, out x2, out x3⟩

def nextU64 (r : Rng) : UInt64 × Rng :=
  let result := rotateLeft (r.s1 * 5) 7 * 9
  let t := r.s1 <<< 17
  let s2 := r.s2 ^^^ r.s0
  let s3 := r.s3 ^^^ r.s1
  let s1 := r.s1 ^^^ s2
  let s0 := r.s0 ^^^ s3
  (result, ⟨s0, s1, s2 ^^^ t, rotateLeft s3 45⟩)

/-- Uniform in [0, 1). -/
def nextF32 (r : Rng) : Rat × Rng :=
  let (x, r) := r.nextU64
  (((x >>> 40).toNat : Rat) / (2 ^ 24 : Rat), r)

end Rng

/-- `argmax`: the first of the largest, 0 where nothing is above minus infinity. -/
def argmax (logits : List F32) : Nat :=
  (logits.zipIdx.foldl (fun best p => if best.2.lt p.1 then (p.2, p.1) else best) (0, F32.negInf)).1

/-- The pick over the kept entries: the first whose weight brings `u` down to
zero. -/
def pick (u : F32) : List (Nat × F32) → Option Nat
  | [] => none
  | (id, p) :: kept =>
    let u := u.sub p
    if u.le (.fin 0) then some id else pick u kept

/-- The multinomial pick, the last entry where the weights run out. -/
def multinomial (r : Rat) (kept : List (Nat × F32)) : Nat :=
  match pick (F32.mul (.fin r) (F32.sum (kept.map (·.2)))) kept with
  | some id => id
  | none => (kept.getLast?.map (·.1)).getD 0

namespace Sampling

/-- The smallest front whose weights reach `p`. -/
def topPEnd (p : F32) (cum : F32) : List (Nat × F32) → Nat
  | [] => 0
  | (_, w) :: rest =>
    let cum := cum.add w
    if p.le cum then 1 else topPEnd p cum rest + 1

/-- `TOP_K_AUTO_CAP`. -/
def topKAutoCap : Nat := 2048

/-- `effective_top_k`. -/
def effectiveTopK (mode : Sampling) : Option Nat :=
  match mode.topK with
  | some k => some k
  | none => if mode.topP.isSome || mode.minP.isSome then some topKAutoCap else none

/-- The partial sort. -/
def selected (U : UnstableDesc) (mode : Sampling) (pairs : List (Nat × F32)) : List (Nat × F32) :=
  match mode.effectiveTopK with
  | none => pairs
  | some k =>
    let k := min k pairs.length
    if 0 < k ∧ k < pairs.length then (U.select k pairs).take k else pairs

def topKStop (mode : Sampling) (sorted : List (Nat × F32)) : Nat :=
  match mode.topK with
  | some k => min sorted.length k
  | none => sorted.length

def topPStop (mode : Sampling) (sorted : List (Nat × F32)) (stop : Nat) : Nat :=
  match mode.topP with
  | some p =>
    if p.lt (.fin 1) && F32.lt (.fin 0) p then topPEnd p (.fin 0) (sorted.take stop) else stop
  | none => stop

/-- At least the first entry is kept. -/
def minPStop (mode : Sampling) (sorted : List (Nat × F32)) (stop : Nat) : Nat :=
  match mode.minP, sorted with
  | some minP, top :: _ =>
    if F32.lt (.fin 0) minP then
      max ((sorted.take stop).findIdx fun q => q.2.lt (top.2.mul minP)) 1
    else stop
  | _, _ => stop

/-- The entries the filters keep, the largest first. -/
def filtered (U : UnstableDesc) (mode : Sampling) (pairs : List (Nat × F32)) : List (Nat × F32) :=
  let sorted := U.sort (mode.selected U pairs)
  sorted.take (mode.minPStop sorted (mode.topPStop sorted (mode.topKStop sorted)))

/-- The largest of the scaled logits. -/
def maxScaled (invT : F32) (logits : List F32) : F32 :=
  logits.foldl (fun m v => if m.lt (v.mul invT) then v.mul invT else m) .negInf

/-- The softmax weights, normalised where their sum is above zero. -/
def softmax (E : ExpF32) (invT : F32) (logits : List F32) : List F32 :=
  let weights := logits.map fun v => E.exp ((v.mul invT).sub (maxScaled invT logits))
  let sum := F32.sum weights
  if F32.lt (.fin 0) sum then weights.map (·.div sum) else weights

/-- `sample_stochastic`, with the number the generator gives. -/
def sampleStochastic (U : UnstableDesc) (E : ExpF32) (mode : Sampling) (logits : List F32)
    (r : Rat) : Nat :=
  let invT := if mode.temperature.le (.fin 0) then .fin 1 else F32.div (.fin 1) mode.temperature
  let pairs := (softmax E invT logits).zipIdx.map fun p => (p.2, p.1)
  multinomial r (if mode.anyFilter then mode.filtered U pairs else pairs)

end Sampling

/-- `Sampler::sample`. -/
def Rng.sample (U : UnstableDesc) (E : ExpF32) (rng : Rng) (logits : List F32) (mode : Sampling)
    (history : List Nat) : Nat × Rng :=
  let view := mode.view logits history
  if mode.isGreedy then (argmax view, rng)
  else
    let (r, rng) := rng.nextF32
    (mode.sampleStochastic U E view r, rng)

end Flambeau.Runtime
