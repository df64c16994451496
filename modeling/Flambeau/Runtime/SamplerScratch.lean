import Flambeau.Systems.Tallies
import Flambeau.Runtime.Sampling

namespace Flambeau.Runtime.HostSampler
open Systems

/-- The `f32` operations of the sampler: none of their laws is used. -/
structure Floats (F : Type) where
  zero : F
  one : F
  negInf : F
  eq : F → F → Bool
  lt : F → F → Bool
  le : F → F → Bool
  partialCmp : F → F → Option Ordering
  add : F → F → F
  sub : F → F → F
  mul : F → F → F
  div : F → F → F
  exp : F → F
  sum : List F → F
  ofU32 : UInt32 → F
  ofU64 : UInt64 → F

/-- `sort_unstable_by` and `select_nth_unstable_by`: what they leave depends on the slice
only, and they may panic where the comparison is no order. -/
structure Sorts (F : Type) where
  sort : (UInt32 × F → UInt32 × F → Ordering) → List (UInt32 × F) → Option (List (UInt32 × F))
  select : Nat → (UInt32 × F → UInt32 × F → Ordering) → List (UInt32 × F) → Option (List (UInt32 × F))

/-- The order in which a map gives its entries. -/
structure MapOrder where
  iter : List (UInt32 × UInt32) → List (UInt32 × UInt32)
  perm : ∀ entries, (iter entries).Perm entries

structure Sampling (F : Type) where
  temperature : F
  topP : Option F
  topK : Option UInt32
  minP : Option F
  repetitionPenalty : F
  presencePenalty : F
  frequencyPenalty : F
  /-- The map's entries, in its order. -/
  logitBias : Option (List (UInt32 × F))

/-- `Vec::clear`. -/
def clear (_ : List α) : List α := []

section
variable {F : Type} (fl : Floats F)

namespace Sampling

def isGreedy (mode : Sampling F) : Bool := fl.le mode.temperature fl.zero

def hasPenalties (mode : Sampling F) : Bool :=
  !fl.eq mode.repetitionPenalty fl.one || !fl.eq mode.presencePenalty fl.zero ||
    !fl.eq mode.frequencyPenalty fl.zero

end Sampling

/-- `Rng::next_f32`. -/
def nextF32 (rng : Rng) : F × Rng :=
  let (x, rng) := rng.nextU64
  (fl.mul (fl.ofU64 (x >>> 40)) (fl.div fl.one (fl.ofU32 ((1 : UInt32) <<< 24))), rng)

def argmax (logits : List F) : UInt32 :=
  (logits.zipIdx.foldl
    (fun best p => if fl.lt best.2 p.1 then (UInt32.ofNat p.2, p.1) else best) (0, fl.negInf)).1

/-- One token's turn in `apply_penalty_kernel`. -/
def penalize (mode : Sampling F) (count : UInt32) (l : F) : F :=
  let l :=
    if !fl.eq mode.repetitionPenalty fl.one && fl.lt fl.zero mode.repetitionPenalty then
      if fl.lt fl.zero l then fl.div l mode.repetitionPenalty else fl.mul l mode.repetitionPenalty
    else l
  let l := if !fl.eq mode.presencePenalty fl.zero then fl.sub l mode.presencePenalty else l
  if !fl.eq mode.frequencyPenalty fl.zero then fl.sub l (fl.mul mode.frequencyPenalty (fl.ofU32 count)) else l

def applyPenaltyKernel (logits : List F) (mode : Sampling F) (counts : List (UInt32 × UInt32)) : List F :=
  counts.foldl (fun logits e =>
    if logits.length ≤ e.1.toNat then logits else logits.modify e.1.toNat (penalize fl mode e.2)) logits

/-- `apply_penalties`: the counts of a map. -/
def applyPenalties (order : MapOrder) (logits : List F) (history : List UInt32) (mode : Sampling F) : List F :=
  if !mode.hasPenalties fl || history.isEmpty then logits
  else applyPenaltyKernel fl logits mode (order.iter (tally (0 + 1) (· + 1) history))

/-- `build_history_counts`: the sorted history and its counts, in the caller's buffers. -/
def buildHistoryCounts (history sortedScratch : List UInt32) (countsOut : List (UInt32 × UInt32)) :
    List UInt32 × List (UInt32 × UInt32) :=
  let countsOut := clear countsOut
  if history.isEmpty then (sortedScratch, countsOut)
  else
    let sortedScratch := (clear sortedScratch ++ history).mergeSort (· ≤ ·)
    match sortedScratch with
    | [] => (sortedScratch, countsOut)
    | prev :: rest => (sortedScratch, countsOut ++ runs 1 (· + 1) prev 1 rest)

/-- The logits, and the buffers as they are left. -/
def applyPenaltiesWithScratch (logits : List F) (history : List UInt32) (mode : Sampling F) (sorted : List UInt32)
    (counts : List (UInt32 × UInt32)) : List F × List UInt32 × List (UInt32 × UInt32) :=
  if !mode.hasPenalties fl || history.isEmpty then (logits, sorted, counts)
  else
    let (sorted, counts) := buildHistoryCounts history sorted counts
    (applyPenaltyKernel fl logits mode counts, sorted, counts)

def applyLogitBias (logits : List F) (mode : Sampling F) : List F :=
  match mode.logitBias with
  | none => logits
  | some bias => bias.foldl (fun logits e => logits.modify e.1.toNat (fl.add · e.2)) logits

/-- The softmax weights and their sum, in the caller's buffer. -/
def fillPairs (logits : List F) (invT maxL : F) (pairScratch : List (UInt32 × F)) : List (UInt32 × F) × F :=
  logits.zipIdx.foldl (fun acc v =>
    let p := fl.exp (fl.sub (fl.mul v.1 invT) maxL)
    (acc.1 ++ [(UInt32.ofNat v.2, p)], fl.add acc.2 p)) (clear pairScratch, fl.zero)

/-- The larger value first. -/
def descending (a b : UInt32 × F) : Ordering := (fl.partialCmp b.2 a.2).getD .eq

def topKAutoCap : UInt32 := 2048

def effectiveTopK (mode : Sampling F) : Option UInt32 :=
  match mode.topK with
  | some k => some k
  | none => if mode.topP.isSome || mode.minP.isSome then some topKAutoCap else none

/-- The smallest front whose weights reach `p`. -/
def topPEnd (p cum : F) : List (UInt32 × F) → Nat
  | [] => 0
  | (_, pv) :: rest =>
    let cum := fl.add cum pv
    if fl.le p cum then 1 else topPEnd p cum rest + 1

/-- The pairs as the filters leave them, and the end of what they keep. -/
def applyFilters (sorts : Sorts F) (mode : Sampling F) (pairs : List (UInt32 × F)) :
    Option (List (UInt32 × F) × Nat) := do
  let pairs ← match effectiveTopK mode with
    | none => some pairs
    | some k =>
      let k := min k.toNat pairs.length
      if 0 < k ∧ k < pairs.length then
        (sorts.select (k - 1) (descending fl) pairs).map (·.take k)
      else some pairs
  let pairs ← sorts.sort (descending fl) pairs
  let stop := match mode.topK with
    | some k => min pairs.length k.toNat
    | none => pairs.length
  let stop := match mode.topP with
    | some p => if fl.lt p fl.one && fl.lt fl.zero p then topPEnd fl p fl.zero (pairs.take stop) else stop
    | none => stop
  match mode.minP with
  | some minP =>
    if fl.lt fl.zero minP then do
      let top ← pairs.head?
      let threshold := fl.mul top.2 minP
      some (pairs, max ((pairs.take stop).findIdx fun e => fl.lt e.2 threshold) 1)
    else some (pairs, stop)
  | none => some (pairs, stop)

/-- The first whose weight brings `u` down to zero. -/
def pick (u : F) : List (UInt32 × F) → Option UInt32
  | [] => none
  | (id, pv) :: kept =>
    let u := fl.sub u pv
    if fl.le u fl.zero then some id else pick u kept

/-- `sample_stochastic`: the token, the generator, and the caller's buffer as it is left;
nothing where it panics. -/
def sampleStochastic (sorts : Sorts F) (logits : List F) (mode : Sampling F) (rng : Rng)
    (pairScratch : List (UInt32 × F)) : Option (UInt32 × Rng × List (UInt32 × F)) := do
  let invT := if fl.le mode.temperature fl.zero then fl.one else fl.div fl.one mode.temperature
  let maxL := logits.foldl (fun m v => if fl.lt m (fl.mul v invT) then fl.mul v invT else m) fl.negInf
  let (pairScratch, sum) := fillPairs fl logits invT maxL pairScratch
  let pairScratch :=
    if fl.lt fl.zero sum then pairScratch.map fun e => (e.1, fl.div e.2 sum) else pairScratch
  let anyFilter := mode.topK.isSome || mode.topP.isSome || mode.minP.isSome
  let (pairScratch, keptEnd) ←
    if anyFilter then applyFilters fl sorts mode pairScratch else some (pairScratch, pairScratch.length)
  if pairScratch.length < keptEnd then none
  else
    let kept := pairScratch.take keptEnd
    let (x, rng) := nextF32 fl rng
    let u := fl.mul x (fl.sum (kept.map (·.2)))
    match pick fl u kept with
    | some id => some (id, rng, pairScratch)
    | none => some ((kept.getLast?.map (·.1)).getD 0, rng, pairScratch)

/-- The free function `sample`. -/
def sample (sorts : Sorts F) (order : MapOrder) (logits : List F) (mode : Sampling F) (history : List UInt32)
    (rng : Rng) : Option (UInt32 × Rng) := do
  let scratch := applyPenalties fl order logits history mode
  let scratch := applyLogitBias fl scratch mode
  if mode.isGreedy fl then some (argmax fl scratch, rng)
  else
    let (token, rng, _) ← sampleStochastic fl sorts scratch mode rng []
    some (token, rng)

/-- A `Sampler`, its buffers left over from earlier calls. -/
structure Sampler (F : Type) where
  rng : Rng
  logitScratch : List F
  pairScratch : List (UInt32 × F)
  historyCounts : List (UInt32 × UInt32)
  historySorted : List UInt32

/-- `Sampler::sample`. -/
def Sampler.sample (sorts : Sorts F) (s : Sampler F) (logits : List F) (mode : Sampling F) (history : List UInt32) :
    Option (UInt32 × Sampler F) := do
  let needsPenalties := mode.hasPenalties fl && !history.isEmpty
  let biasActive := mode.logitBias.any fun b => !b.isEmpty
  let (s, logitsView) :=
    if needsPenalties || biasActive then
      let logitScratch := clear s.logitScratch ++ logits
      let (logitScratch, sorted, counts) :=
        if needsPenalties then
          applyPenaltiesWithScratch fl logitScratch history mode s.historySorted s.historyCounts
        else (logitScratch, s.historySorted, s.historyCounts)
      let logitScratch := applyLogitBias fl logitScratch mode
      ({ s with logitScratch, historySorted := sorted, historyCounts := counts }, logitScratch)
    else (s, logits)
  if mode.isGreedy fl then some (argmax fl logitsView, s)
  else
    let (token, rng, pairScratch) ← sampleStochastic fl sorts logitsView mode s.rng s.pairScratch
    some (token, { s with rng, pairScratch })

end

/-- A call of either sampler. -/
structure Call (F : Type) where
  logits : List F
  mode : Sampling F
  history : List UInt32

section Runs
variable {F : Type} (fl : Floats F) (sorts : Sorts F)

/-- The tokens of a sequence of calls, each with the generator it leaves. -/
def Sampler.run (s : Sampler F) : List (Call F) → Option (List (UInt32 × Rng))
  | [] => some []
  | call :: calls => do
    let (token, s) ← s.sample fl sorts call.logits call.mode call.history
    let rest ← s.run calls
    some ((token, s.rng) :: rest)

/-- The same from the free function, whose map of each call has an order of its own. -/
def reference (rng : Rng) : List (Call F × MapOrder) → Option (List (UInt32 × Rng))
  | [] => some []
  | (call, order) :: calls => do
    let (token, rng) ← HostSampler.sample fl sorts order call.logits call.mode call.history rng
    let rest ← reference rng calls
    some ((token, rng) :: rest)

end Runs

section Agreement
variable {F : Type} (fl : Floats F)

theorem applyPenaltyKernel_eq (logits : List F) (mode : Sampling F) (counts : List (UInt32 × UInt32)) :
    applyPenaltyKernel fl logits mode counts =
      counts.foldl (fun ls e => ls.modify e.1.toNat (penalize fl mode e.2)) logits := by
  unfold applyPenaltyKernel
  congr 1
  funext ls e
  split
  · rename_i hout
    exact (List.modify_eq_self hout).symm
  · rfl

/-- The counts of the sorted history are a tally of the history, whatever the buffers held. -/
theorem buildHistoryCounts_tallies (history sorted : List UInt32) (counts : List (UInt32 × UInt32)) :
    Tallies 1 (· + 1) history (buildHistoryCounts history sorted counts).2 := by
  unfold buildHistoryCounts clear
  dsimp only
  split
  · rename_i hnone
    rw [List.isEmpty_iff.mp hnone]
    exact ⟨List.nodup_nil, fun t c => by simp⟩
  · rw [List.nil_append]
    have hperm := List.mergeSort_perm history (· ≤ ·)
    have hsorted : (history.mergeSort (· ≤ ·)).Pairwise (· ≤ ·) := by
      have hpairs := @List.pairwise_mergeSort _ (fun a b : UInt32 => decide (a ≤ b))
        (fun a b c hab hbc => decide_eq_true (UInt32.le_trans (of_decide_eq_true hab) (of_decide_eq_true hbc)))
        (fun a b => by
          rcases UInt32.le_total a b with h | h
          · simp [h]
          · simp [h]) history
      exact hpairs.imp of_decide_eq_true
    cases hsort : history.mergeSort (· ≤ ·) with
    | nil =>
      rw [hsort] at hperm
      rw [List.nil_perm.mp hperm]
      exact ⟨List.nodup_nil, fun t c => by simp⟩
    | cons prev rest =>
      rw [hsort] at hperm hsorted
      exact (runs_tallies (fun a b => UInt32.le_antisymm) hsorted).of_perm hperm

/-- The penalties by the sorted counts are the penalties by the map's counts. -/
theorem penalties_agree (logits : List F) (history : List UInt32) (mode : Sampling F) (sorted : List UInt32)
    (counts : List (UInt32 × UInt32)) (order : MapOrder) :
    (applyPenaltiesWithScratch fl logits history mode sorted counts).1 =
      applyPenalties fl order logits history mode := by
  unfold applyPenaltiesWithScratch applyPenalties
  split
  · rfl
  · have hsorted := buildHistoryCounts_tallies history sorted counts
    have hmap := @tally_tallies _ _ _ (0 + 1 : UInt32) (· + 1) history
    have hperm := (hsorted.perm hmap).trans (order.perm _).symm
    dsimp only
    rw [applyPenaltyKernel_eq, applyPenaltyKernel_eq]
    exact foldl_modify_perm UInt32.toNat (penalize fl mode) (fun a b => UInt32.toNat_inj.mp) hperm hsorted.nodup
      logits

/-- The logits that a call draws from. -/
def viewed (logits : List F) (mode : Sampling F) (history : List UInt32) (sorted : List UInt32)
    (counts : List (UInt32 × UInt32)) : List F :=
  applyLogitBias fl (applyPenaltiesWithScratch fl logits history mode sorted counts).1 mode

theorem applyLogitBias_inactive {mode : Sampling F} (h : (mode.logitBias.any fun b => !b.isEmpty) = false)
    (logits : List F) : applyLogitBias fl logits mode = logits := by
  unfold applyLogitBias
  cases hbias : mode.logitBias with
  | none => rfl
  | some bias =>
    rw [hbias] at h
    cases bias with
    | nil => rfl
    | cons e bias => cases h

/-- A call draws from the penalised and biased logits, and its buffers play no part. -/
theorem sampler_sample (sorts : Sorts F) (s : Sampler F) (logits : List F) (mode : Sampling F)
    (history : List UInt32) :
    (s.sample fl sorts logits mode history).map (fun r => (r.1, r.2.rng)) =
      (let view := viewed fl logits mode history s.historySorted s.historyCounts
      if mode.isGreedy fl then some (argmax fl view, s.rng)
      else (sampleStochastic fl sorts view mode s.rng []).map fun r => (r.1, r.2.1)) := by
  have hfinish : ∀ (s' : Sampler F) (view : List F), s'.rng = s.rng →
      (if mode.isGreedy fl then some (argmax fl view, s')
        else do
          let (token, rng, pairScratch) ← sampleStochastic fl sorts view mode s'.rng s'.pairScratch
          some (token, { s' with rng, pairScratch })).map (fun r => (r.1, r.2.rng)) =
        if mode.isGreedy fl then some (argmax fl view, s.rng)
        else (sampleStochastic fl sorts view mode s.rng []).map fun r => (r.1, r.2.1) := by
    intro s' view hrng
    have hclear : sampleStochastic fl sorts view mode s'.rng s'.pairScratch =
        sampleStochastic fl sorts view mode s.rng [] := by
      rw [hrng]
      rfl
    split
    · rw [Option.map_some, hrng]
    · rw [hclear]
      cases sampleStochastic fl sorts view mode s.rng [] <;> rfl
  have hview : viewed fl logits mode history s.historySorted s.historyCounts =
      if (mode.hasPenalties fl && !history.isEmpty) = true then
        applyLogitBias fl
          (applyPenaltiesWithScratch fl logits history mode s.historySorted s.historyCounts).1 mode
      else applyLogitBias fl logits mode := by
    unfold viewed applyPenaltiesWithScratch
    cases mode.hasPenalties fl <;> cases history.isEmpty <;> rfl
  dsimp only
  rw [hview]
  unfold Sampler.sample clear
  dsimp only
  rw [List.nil_append]
  cases hneeds : mode.hasPenalties fl && !history.isEmpty with
  | true =>
    simp only [Bool.true_or, if_true]
    exact hfinish _ _ rfl
  | false =>
    simp only [Bool.false_or, Bool.false_eq_true, if_false]
    cases hbias : mode.logitBias.any fun b => !b.isEmpty with
    | true =>
      simp only [if_true]
      exact hfinish _ _ rfl
    | false =>
      rw [applyLogitBias_inactive fl hbias]
      simp only [Bool.false_eq_true, if_false]
      exact hfinish _ _ rfl

theorem sample_agrees (sorts : Sorts F) (order : MapOrder) (s : Sampler F) (logits : List F) (mode : Sampling F)
    (history : List UInt32) :
    (s.sample fl sorts logits mode history).map (fun r => (r.1, r.2.rng)) =
      HostSampler.sample fl sorts order logits mode history s.rng := by
  rw [sampler_sample]
  unfold HostSampler.sample viewed
  dsimp only
  rw [penalties_agree fl logits history mode s.historySorted s.historyCounts order]
  split
  · rfl
  · cases sampleStochastic fl sorts _ mode s.rng [] <;> rfl

theorem run_agrees (sorts : Sorts F) (calls : List (Call F × MapOrder)) (s : Sampler F) :
    s.run fl sorts (calls.map Prod.fst) = reference fl sorts s.rng calls := by
  induction calls generalizing s with
  | nil => rfl
  | cons head calls ih =>
    obtain ⟨call, order⟩ := head
    have hcall := sample_agrees fl sorts order s call.logits call.mode call.history
    rw [List.map_cons, Sampler.run, reference, ← hcall]
    cases s.sample fl sorts call.logits call.mode call.history with
    | none => rfl
    | some r =>
      change (r.2.run fl sorts (calls.map Prod.fst) >>= fun rest => some ((r.1, r.2.rng) :: rest)) = _
      rw [ih]
      rfl

end Agreement

/-- Call after call, with whatever its buffers hold, the sampler returns the tokens of the free
function and leaves the generator as that does; and the penalties by sorted counts are those
by the counts of a map. -/
theorem sampler_equals_reference (fl : Floats F) (sorts : Sorts F) :
    (∀ (s : Sampler F) (calls : List (Call F × MapOrder)),
      s.run fl sorts (calls.map Prod.fst) = reference fl sorts s.rng calls) ∧
    ∀ (logits : List F) (history : List UInt32) (mode : Sampling F) (sorted : List UInt32)
      (counts : List (UInt32 × UInt32)) (order : MapOrder),
      (applyPenaltiesWithScratch fl logits history mode sorted counts).1 =
        applyPenalties fl order logits history mode :=
  ⟨fun s calls => run_agrees fl sorts calls s, penalties_agree fl⟩

end Flambeau.Runtime.HostSampler
