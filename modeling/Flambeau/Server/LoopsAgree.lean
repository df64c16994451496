import Flambeau.Server.Generation

namespace Flambeau.Server.Generation
open Flambeau.Runtime
open Flambeau.Json (nullBytes)

/-- Two lists agree at each place that both have. -/
def Pointwise (P : Nat → α → β → Prop) (as : List α) (bs : List β) : Prop :=
  ∀ i a b, as[i]? = some a → bs[i]? = some b → P i a b

theorem pointwise_nil_left {P : Nat → α → β → Prop} {bs : List β} : Pointwise P [] bs := by
  intro i a b ha
  simp at ha

theorem pointwise_nil_right {P : Nat → α → β → Prop} {as : List α} : Pointwise P as [] := by
  intro i a b _ hb
  simp at hb

theorem pointwise_cons {P : Nat → α → β → Prop} {as : List α} {bs : List β} :
    Pointwise P (a :: as) (b :: bs) ↔ P 0 a b ∧ Pointwise (fun i => P (i + 1)) as bs := by
  constructor
  · intro h
    exact ⟨h 0 a b rfl rfl, fun i x y hx hy => h (i + 1) x y hx hy⟩
  · rintro ⟨hhead, htail⟩ i x y hx hy
    cases i with
    | zero =>
      cases hx
      cases hy
      exact hhead
    | succ i => exact htail i x y hx hy

/-- The loop may serve a request: `scheduler_can_engage`, as far as the request
decides it. -/
def Loop.mayServe (params : SamplingParams) : Loop → Bool
  | .scheduler => !params.jsonMode && params.collectLogprobs.isNone
  | .blocking => true
  | .streaming => true

/-- The logits that the token of a turn is sampled from, the first token's turn
being 0. -/
def Loop.turnLogits (loop : Loop) (e : Engine) (relax : Bool) (step : Nat)
    (json : Option JsonConstraint) (logits : List F32) : List F32 :=
  if step = 0 then loop.firstLogits e relax json logits
  else loop.stepLogits e relax step json logits

/-- The logits of a turn under the stop mask of the non-streaming and the
streaming loop. -/
def stopMasked (e : Engine) (relax : Bool) (step : Nat) (logits : List F32) : List F32 :=
  if step = 0 then maskStopIds e.tokenizer.stopIds logits else maskStep e relax step logits

/-- The loops differ on the first token's stop mask: it is idle where the stop
tokens are at minus infinity already. -/
def FirstMaskIdle (e : Engine) (relax : Bool) (A B : Loop) (step : Nat) (logits : List F32) : Prop :=
  step = 0 → relax = true → (A = .scheduler ∧ B ≠ .scheduler) ∨ (A ≠ .scheduler ∧ B = .scheduler) →
    ∀ sid ∈ e.tokenizer.stopIds, ∀ v, logits[sid]? = some v → v = .negInf

/-- Only the non-streaming loop has the JSON mask: it is idle where each of the
best candidates is allowed or at minus infinity already. -/
def JsonMaskIdle (e : Engine) (relax : Bool) (A B : Loop) (step : Nat)
    (json : Option JsonConstraint) (logits : List F32) : Prop :=
  (A = .blocking ∧ B ≠ .blocking) ∨ (A ≠ .blocking ∧ B = .blocking) → ∀ js, json = some js →
    ∀ p ∈ jsonCandidates e.unstable (stopMasked e relax step logits) jsonMaskCandidates,
      jsonAllows js e.tokenizer p.1 = true ∨
        ∀ v, (stopMasked e relax step logits)[p.1]? = some v → v = .negInf

theorem maskJson_idle {e : Engine} {json : Option JsonConstraint} {logits : List F32} :
    maskJson e json logits = logits ↔ ∀ js, json = some js →
      ∀ p ∈ jsonCandidates e.unstable logits jsonMaskCandidates,
        jsonAllows js e.tokenizer p.1 = true ∨ ∀ v, logits[p.1]? = some v → v = .negInf := by
  cases json with
  | none => simp [maskJson]
  | some js =>
    rw [maskJson, applyJsonMask_idle]
    constructor
    · intro h js' hjs
      cases hjs
      exact h
    · exact fun h => h js rfl

theorem turnLogits_scheduler {e : Engine} {relax : Bool} {step : Nat} {json : Option JsonConstraint}
    {logits : List F32} : Loop.scheduler.turnLogits e relax step json logits =
      if step = 0 ∧ relax = true then logits else stopMasked e relax step logits := by
  unfold Loop.turnLogits stopMasked Loop.firstLogits Loop.stepLogits
  by_cases hstep : step = 0
  · cases relax <;> simp [hstep]
  · simp [hstep]

theorem turnLogits_blocking {e : Engine} {relax : Bool} {step : Nat} {json : Option JsonConstraint}
    {logits : List F32} : Loop.blocking.turnLogits e relax step json logits =
      maskJson e json (stopMasked e relax step logits) := by
  unfold Loop.turnLogits stopMasked Loop.firstLogits Loop.stepLogits
  split <;> rfl

theorem turnLogits_streaming {e : Engine} {relax : Bool} {step : Nat} {json : Option JsonConstraint}
    {logits : List F32} : Loop.streaming.turnLogits e relax step json logits =
      stopMasked e relax step logits := by
  unfold Loop.turnLogits stopMasked Loop.firstLogits Loop.stepLogits
  split <;> rfl

theorem schedulerLogits_idle {e : Engine} {relax : Bool} {step : Nat} {logits : List F32} :
    (if step = 0 ∧ relax = true then logits else stopMasked e relax step logits) =
      stopMasked e relax step logits ↔
    (step = 0 → relax = true → ∀ sid ∈ e.tokenizer.stopIds, ∀ v, logits[sid]? = some v → v = .negInf) := by
  split
  · rename_i h
    obtain ⟨rfl, rfl⟩ := h
    have hmask : stopMasked e true 0 logits = maskStopIds e.tokenizer.stopIds logits := rfl
    rw [hmask, eq_comm, maskStopIds_idle]
    exact ⟨fun h _ _ => h, fun h => h rfl rfl⟩
  · rename_i h
    exact ⟨fun _ hstep hrelax => absurd ⟨hstep, hrelax⟩ h, fun _ => rfl⟩

/-- Two loops pass the same logits to the sampler exactly where their masks'
differences are idle. -/
theorem turnLogits_eq_iff {e : Engine} {relax : Bool} {step : Nat} {json : Option JsonConstraint}
    {logits : List F32} {A B : Loop} (hjson : A = .scheduler ∨ B = .scheduler → json = none) :
    A.turnLogits e relax step json logits = B.turnLogits e relax step json logits ↔
      FirstMaskIdle e relax A B step logits ∧ JsonMaskIdle e relax A B step json logits := by
  have hnone : A = .scheduler ∨ B = .scheduler → JsonMaskIdle e relax A B step json logits := by
    intro h _ js hjs
    rw [hjson h] at hjs
    cases hjs
  have hmaskNone : ∀ ls, maskJson e none ls = ls := fun _ => rfl
  cases A with
  | scheduler =>
    have hidle := hnone (.inl rfl)
    cases B with
    | scheduler =>
      refine ⟨fun _ => ⟨?_, hidle⟩, fun _ => rfl⟩
      rintro - - (⟨-, h⟩ | ⟨h, -⟩) <;> exact absurd rfl h
    | blocking =>
      rw [turnLogits_scheduler, turnLogits_blocking, hjson (.inl rfl), hmaskNone, schedulerLogits_idle]
      refine ⟨fun h => ⟨fun hs hr _ => h hs hr, ?_⟩, fun h hs hr => h.1 hs hr (.inl ⟨rfl, by decide⟩)⟩
      intro _ js hjs
      cases hjs
    | streaming =>
      rw [turnLogits_scheduler, turnLogits_streaming, schedulerLogits_idle]
      exact ⟨fun h => ⟨fun hs hr _ => h hs hr, hidle⟩,
        fun h hs hr => h.1 hs hr (.inl ⟨rfl, by decide⟩)⟩
  | blocking =>
    cases B with
    | scheduler =>
      rw [turnLogits_scheduler, turnLogits_blocking, hjson (.inr rfl), hmaskNone, eq_comm,
        schedulerLogits_idle]
      refine ⟨fun h => ⟨fun hs hr _ => h hs hr, ?_⟩, fun h hs hr => h.1 hs hr (.inr ⟨by decide, rfl⟩)⟩
      intro _ js hjs
      cases hjs
    | blocking =>
      refine ⟨fun _ => ⟨?_, ?_⟩, fun _ => rfl⟩
      · rintro - - (⟨h, -⟩ | ⟨-, h⟩) <;> cases h
      · rintro (⟨-, h⟩ | ⟨h, -⟩) <;> exact absurd rfl h
    | streaming =>
      rw [turnLogits_blocking, turnLogits_streaming, maskJson_idle]
      refine ⟨fun h => ⟨?_, fun _ => h⟩, fun h => h.2 (.inl ⟨rfl, by decide⟩)⟩
      rintro - - (⟨h, -⟩ | ⟨-, h⟩) <;> cases h
  | streaming =>
    cases B with
    | scheduler =>
      rw [turnLogits_scheduler, turnLogits_streaming, eq_comm, schedulerLogits_idle]
      exact ⟨fun h => ⟨fun hs hr _ => h hs hr, hnone (.inr rfl)⟩,
        fun h hs hr => h.1 hs hr (.inr ⟨by decide, rfl⟩)⟩
    | blocking =>
      rw [turnLogits_blocking, turnLogits_streaming, eq_comm, maskJson_idle]
      refine ⟨fun h => ⟨?_, fun _ => h⟩, fun h => h.2 (.inr ⟨by decide, rfl⟩)⟩
      rintro - - (⟨h, -⟩ | ⟨-, h⟩) <;> cases h
    | streaming =>
      refine ⟨fun _ => ⟨?_, ?_⟩, fun _ => rfl⟩
      · rintro - - (⟨h, -⟩ | ⟨-, h⟩) <;> cases h
      · rintro (⟨h, -⟩ | ⟨-, h⟩) <;> cases h

/-- What the next token is decided from. -/
structure SameHistory (s t : State) : Prop where
  rng : s.rng = t.rng
  closer : s.closer = t.closer
  generated : s.generated = t.generated
  json : s.json = t.json

/-- The token that the reasoning closer forces at a turn. -/
def forcedAt (params : SamplingParams) (step : Nat) (s : State) : Option Nat :=
  if step = 0 then none else (s.closer.nextForced s.generated params.reasoningBudget).1

/-- A turn of either kind. -/
def Loop.turn (loop : Loop) (e : Engine) (params : SamplingParams) (relax : Bool) (step : Nat)
    (s : State) (logits : List F32) : Turn × State :=
  if step = 0 then loop.firstTurn e params relax s logits
  else loop.stepTurn e params relax step s logits

/-- The two loops did the same at a turn. -/
def SameTurn (a b : Turn) : Prop := a.passed = b.passed ∧ a.token = b.token

/-- The closer after a turn. -/
def closerAt (params : SamplingParams) (step : Nat) (s : State) : ReasoningCloser :=
  if step = 0 then s.closer else (s.closer.nextForced s.generated params.reasoningBudget).2

/-- The history that a turn's penalties see. -/
def historyAt (step : Nat) (s : State) : List Nat := if step = 0 then [] else s.generated

/-- What a turn without a forced token samples. -/
def Loop.sampled (loop : Loop) (e : Engine) (params : SamplingParams) (relax : Bool) (step : Nat)
    (s : State) (logits : List F32) : Nat × Rng :=
  s.rng.sample e.unstable e.expF32 (loop.turnLogits e relax step s.json logits) params.sampling
    (historyAt step s)

theorem turn_sampled (loop : Loop) (e : Engine) {params : SamplingParams} (relax : Bool) {step : Nat}
    {s : State} (logits : List F32) (h : forcedAt params step s = none) :
    loop.turn e params relax step s logits =
      (⟨s, logits, some (loop.turnLogits e relax step s.json logits),
        (loop.sampled e params relax step s logits).1⟩,
       s.chose e (loop.sampled e params relax step s logits).2 (closerAt params step s)
        (loop.sampled e params relax step s logits).1) := by
  unfold forcedAt at h
  unfold Loop.turn Loop.sampled Loop.turnLogits historyAt closerAt
  split at h
  · rename_i hstep
    simp only [if_pos hstep]
    rfl
  · rename_i hstep
    simp only [if_neg hstep]
    unfold Loop.stepTurn
    rcases hforced : s.closer.nextForced s.generated params.reasoningBudget with ⟨forced, closer⟩
    rw [hforced] at h
    cases h
    rfl

theorem turn_forced (loop : Loop) (e : Engine) {params : SamplingParams} (relax : Bool) {step : Nat}
    {s : State} (logits : List F32) (h : forcedAt params step s = some token) :
    loop.turn e params relax step s logits =
      (⟨s, logits, none, token⟩, s.chose e s.rng (closerAt params step s) token) := by
  unfold forcedAt at h
  unfold Loop.turn closerAt
  split at h
  · cases h
  · rename_i hstep
    simp only [if_neg hstep]
    unfold Loop.stepTurn
    rcases hforced : s.closer.nextForced s.generated params.reasoningBudget with ⟨forced, closer⟩
    rw [hforced] at h
    cases h
    rfl

theorem chose_same {e : Engine} {s t : State} (h : SameHistory s t) (rng : Rng)
    (closer : ReasoningCloser) (token : Nat) :
    SameHistory (s.chose e rng closer token) (t.chose e rng closer token) := by
  refine ⟨rfl, rfl, ?_, ?_⟩
  · rw [State.chose, State.chose, h.generated]
  · rw [State.chose, State.chose, h.json]

/-- From the same history, two loops do the same at a turn exactly where the token
is forced or their logits are the same; then they go on from the same history. -/
theorem turn_agree {e : Engine} {params : SamplingParams} {relax : Bool} {step : Nat} {s t : State}
    {logits : List F32} {A B : Loop} (h : SameHistory s t) :
    let a := A.turn e params relax step s logits
    let b := B.turn e params relax step t logits
    (SameTurn a.1 b.1 ↔ (forcedAt params step s = none →
      A.turnLogits e relax step s.json logits = B.turnLogits e relax step s.json logits)) ∧
    (SameTurn a.1 b.1 → SameHistory a.2 b.2) := by
  have hforced : forcedAt params step t = forcedAt params step s := by
    rw [forcedAt, forcedAt, h.closer, h.generated]
  have hcloser : closerAt params step t = closerAt params step s := by
    rw [closerAt, closerAt, h.closer, h.generated]
  have hhistory : historyAt step t = historyAt step s := by
    rw [historyAt, historyAt, h.generated]
  dsimp only
  cases hf : forcedAt params step s with
  | some token =>
    rw [turn_forced A e relax logits hf, turn_forced B e relax logits (hforced.trans hf), hcloser, ← h.rng]
    exact ⟨iff_of_true ⟨rfl, rfl⟩ (fun hnone => nomatch hnone), fun _ => chose_same h _ _ _⟩
  | none =>
    rw [turn_sampled A e relax logits hf, turn_sampled B e relax logits (hforced.trans hf), hcloser]
    have hsampled : A.turnLogits e relax step s.json logits = B.turnLogits e relax step t.json logits →
        A.sampled e params relax step s logits = B.sampled e params relax step t logits := by
      intro heq
      rw [Loop.sampled, Loop.sampled, heq, h.rng, hhistory]
    rw [← h.json] at hsampled ⊢
    refine ⟨⟨fun hsame _ => Option.some.inj hsame.1, fun heq => ?_⟩, fun hsame => ?_⟩
    · refine ⟨congrArg some (heq rfl), ?_⟩
      rw [hsampled (heq rfl)]
    · rw [hsampled (Option.some.inj hsame.1)]
      exact chose_same h _ _ _

/-- What a turn's masks must meet for two loops to do the same. -/
def MasksIdle (e : Engine) (params : SamplingParams) (relax : Bool) (A B : Loop) (step : Nat)
    (t : Turn) : Prop :=
  forcedAt params step t.before = none →
    FirstMaskIdle e relax A B step t.logits ∧ JsonMaskIdle e relax A B step t.before.json t.logits

/-- The history of a turn is as `s` has it. -/
theorem pushAndEmit_go {e : Engine} {client : ToolCallParser.Text → ToolCallParser.Text → Bool}
    {s s' : State} (h : pushAndEmit e client token s = .go s') : ∃ stream, s' = { s with stream } := by
  unfold pushAndEmit at h
  dsimp only at h
  repeat' split at h
  all_goals first | (cases h; exact ⟨_, rfl⟩) | cases h

theorem sameHistory_stream {s t : State} (h : SameHistory s t) (u v : StreamState) :
    SameHistory { s with stream := u } { t with stream := v } :=
  ⟨h.rng, h.closer, h.generated, h.json⟩

/-- A loop that goes on keeps the history. -/
theorem afterFirst_go {e : Engine} {client : ToolCallParser.Text → ToolCallParser.Text → Bool}
    {loop : Loop} {s s' : State} (h : loop.afterFirst e client token s = .go s') :
    ∃ stream, s' = { s with stream } := by
  cases loop with
  | scheduler =>
    rw [Loop.afterFirst] at h
    split at h
    · cases h
    · cases h
      exact ⟨_, rfl⟩
  | blocking =>
    rw [Loop.afterFirst] at h
    split at h
    · cases h
    · cases h
      exact ⟨_, rfl⟩
  | streaming => exact pushAndEmit_go h

theorem afterStep_go {e : Engine} {client : ToolCallParser.Text → ToolCallParser.Text → Bool}
    {loop : Loop} {s s' : State} (h : loop.afterStep e params client relax step token s = .go s') :
    ∃ stream, s' = { s with stream } := by
  cases loop with
  | scheduler =>
    rw [Loop.afterStep] at h
    repeat' split at h
    all_goals first | (cases h; exact ⟨_, rfl⟩) | cases h
  | blocking =>
    rw [Loop.afterStep] at h
    repeat' split at h
    all_goals first | (cases h; exact ⟨_, rfl⟩) | cases h
  | streaming =>
    rw [Loop.afterStep] at h
    split at h
    · rename_i s₁ hpush
      split at h
      · cases h
      · cases h
        exact pushAndEmit_go hpush
    · rename_i hnot
      exact absurd h (hnot s')

theorem turn_before (loop : Loop) (e : Engine) (params : SamplingParams) (relax : Bool) (step : Nat)
    (s : State) (logits : List F32) :
    (loop.turn e params relax step s logits).1.before = s ∧
      (loop.turn e params relax step s logits).1.logits = logits := by
  cases hf : forcedAt params step s with
  | some token =>
    rw [turn_forced loop e relax logits hf]
    exact ⟨rfl, rfl⟩
  | none =>
    rw [turn_sampled loop e relax logits hf]
    exact ⟨rfl, rfl⟩

/-- The history and the constraint after a turn. -/
theorem turn_after (loop : Loop) (e : Engine) (params : SamplingParams) (relax : Bool) (step : Nat)
    (s : State) (logits : List F32) :
    let turn := loop.turn e params relax step s logits
    turn.2.generated = s.generated ++ [turn.1.token] ∧
      turn.2.json = s.json.map fun js => feedToken e.tokenizer js turn.1.token := by
  dsimp only
  cases hf : forcedAt params step s with
  | some token =>
    rw [turn_forced loop e relax logits hf]
    exact ⟨rfl, rfl⟩
  | none =>
    rw [turn_sampled loop e relax logits hf]
    exact ⟨rfl, rfl⟩

/-- A loop that carries no constraint carries none after a turn. -/
theorem turn_json {loop : Loop} {e : Engine} {s : State} (h : s.json = none) :
    (loop.turn e params relax step s logits).2.json = none := by
  rw [(turn_after loop e params relax step s logits).2, h]
  rfl

/-- One turn of both loops and then the rest: the lists of turns agree exactly
where the masks are idle, given that for the rest. -/
theorem turns_agree {e : Engine} {params : SamplingParams} {relax : Bool} {A B : Loop} {step : Nat}
    {s t : State} {logits : List F32} (h : SameHistory s t)
    (hjson : A = .scheduler ∨ B = .scheduler → s.json = none) {as bs : List Turn}
    (hrest : SameHistory (A.turn e params relax step s logits).2 (B.turn e params relax step t logits).2 →
      (Pointwise (fun _ => SameTurn) as bs ↔
        Pointwise (fun i a _ => MasksIdle e params relax A B (step + (i + 1)) a) as bs)) :
    Pointwise (fun _ => SameTurn) ((A.turn e params relax step s logits).1 :: as)
        ((B.turn e params relax step t logits).1 :: bs) ↔
      Pointwise (fun i a _ => MasksIdle e params relax A B (step + i) a)
        ((A.turn e params relax step s logits).1 :: as)
        ((B.turn e params relax step t logits).1 :: bs) := by
  obtain ⟨hsame, hnext⟩ := @turn_agree _ params relax step _ _ logits A B h
  obtain ⟨hbefore, hlogits⟩ := turn_before A e params relax step s logits
  have hidle : SameTurn (A.turn e params relax step s logits).1 (B.turn e params relax step t logits).1 ↔
      MasksIdle e params relax A B step (A.turn e params relax step s logits).1 := by
    rw [hsame, MasksIdle, hbefore, hlogits, turnLogits_eq_iff hjson]
  rw [pointwise_cons, pointwise_cons, Nat.add_zero, hidle]
  constructor
  · rintro ⟨hhead, htail⟩
    exact ⟨hhead, (hrest (hnext (hidle.mpr hhead))).mp htail⟩
  · rintro ⟨hhead, htail⟩
    exact ⟨hhead, (hrest (hnext (hidle.mpr hhead))).mpr htail⟩

theorem no_rest {P Q : Nat → Turn → Turn → Prop} {as bs : List Turn} (h : as = [] ∨ bs = []) :
    Pointwise P as bs ↔ Pointwise Q as bs := by
  rcases h with rfl | rfl
  · exact iff_of_true pointwise_nil_left pointwise_nil_left
  · exact iff_of_true pointwise_nil_right pointwise_nil_right

theorem steps_agree (r : Request) {A B : Loop} (n step : Nat) (hstep : step ≠ 0) {s t : State}
    (h : SameHistory s t) (hjson : A = .scheduler ∨ B = .scheduler → s.json = none) :
    Pointwise (fun _ => SameTurn) (r.steps A s step n).1 (r.steps B t step n).1 ↔
      Pointwise (fun i a _ => MasksIdle r.engine r.params r.relaxStopMask A B (step + i) a)
        (r.steps A s step n).1 (r.steps B t step n).1 := by
  induction n generalizing step s t with
  | zero => exact no_rest (.inl rfl)
  | succ n ih =>
    rw [Request.steps, Request.steps, ← h.generated]
    cases r.engine.forward (r.promptIds ++ s.generated) with
    | none => exact no_rest (.inl rfl)
    | some logits =>
      have hturn : ∀ (loop : Loop) (s : State),
          loop.stepTurn r.engine r.params r.relaxStopMask step s logits =
            loop.turn r.engine r.params r.relaxStopMask step s logits := by
        intro loop s
        rw [Loop.turn, if_neg hstep]
      dsimp only
      rw [hturn, hturn]
      have hrest : SameHistory (A.turn r.engine r.params r.relaxStopMask step s logits).2
          (B.turn r.engine r.params r.relaxStopMask step t logits).2 → ∀ sa sb,
          (∃ stream, sa = { (A.turn r.engine r.params r.relaxStopMask step s logits).2 with stream }) →
          (∃ stream, sb = { (B.turn r.engine r.params r.relaxStopMask step t logits).2 with stream }) →
          (Pointwise (fun _ => SameTurn) (r.steps A sa (step + 1) n).1 (r.steps B sb (step + 1) n).1 ↔
            Pointwise (fun i a _ => MasksIdle r.engine r.params r.relaxStopMask A B (step + (i + 1)) a)
              (r.steps A sa (step + 1) n).1 (r.steps B sb (step + 1) n).1) := by
        rintro hsame sa sb ⟨u, rfl⟩ ⟨v, rfl⟩
        have hthis := ih (step + 1) (Nat.succ_ne_zero step) (sameHistory_stream hsame u v)
          (fun hs => turn_json (hjson hs))
        simp only [Nat.add_assoc, Nat.add_comm 1] at hthis ⊢
        exact hthis
      split <;> split
      · rename_i sa hgoA _ sb hgoB
        exact turns_agree h hjson fun hsame => hrest hsame sa sb (afterStep_go hgoA) (afterStep_go hgoB)
      · exact turns_agree h hjson fun _ => no_rest (.inr rfl)
      · exact turns_agree h hjson fun _ => no_rest (.inl rfl)
      · exact turns_agree h hjson fun _ => no_rest (.inl rfl)

/-- Two loops that may serve a request pass the same logits to the sampler and
choose the same token, at every turn both reach, exactly where at each such turn
that is not forced their masks' differences are idle. -/
theorem loops_agree_iff (r : Request) {A B : Loop} (hA : A.mayServe r.params = true)
    (hB : B.mayServe r.params = true) :
    Pointwise (fun _ => SameTurn) (r.turns A) (r.turns B) ↔
      Pointwise (fun i a _ => MasksIdle r.engine r.params r.relaxStopMask A B i a)
        (r.turns A) (r.turns B) := by
  have hjson : A = .scheduler ∨ B = .scheduler → (start r.engine r.params).json = none := by
    have hoff : r.params.jsonMode = false → (start r.engine r.params).json = none := by
      intro h
      simp [start, jsonStart, h]
    rintro (rfl | rfl)
    · exact hoff (by simpa [Loop.mayServe] using (Bool.and_eq_true_iff.mp hA).1)
    · exact hoff (by simpa [Loop.mayServe] using (Bool.and_eq_true_iff.mp hB).1)
  have hzero : (fun (i : Nat) (a _ : Turn) => MasksIdle r.engine r.params r.relaxStopMask A B i a) =
      fun i a _ => MasksIdle r.engine r.params r.relaxStopMask A B (0 + i) a := by
    funext i a _
    rw [Nat.zero_add]
  rw [hzero]
  unfold Request.turns Request.run
  split
  · exact no_rest (.inl rfl)
  cases r.engine.forward r.promptIds with
  | none => exact no_rest (.inl rfl)
  | some logits =>
    have hturn : ∀ (loop : Loop) (s : State),
        loop.firstTurn r.engine r.params r.relaxStopMask s logits =
          loop.turn r.engine r.params r.relaxStopMask 0 s logits := fun _ _ => rfl
    dsimp only
    rw [hturn, hturn]
    have h : SameHistory (start r.engine r.params) (start r.engine r.params) := ⟨rfl, rfl, rfl, rfl⟩
    split <;> split
    · rename_i sa hgoA _ sb hgoB
      refine turns_agree h hjson fun hsame => ?_
      obtain ⟨u, rfl⟩ := afterFirst_go hgoA
      obtain ⟨v, rfl⟩ := afterFirst_go hgoB
      have hthis := steps_agree r (r.params.maxTokens - 1) 1 (by decide)
        (sameHistory_stream hsame u v) (fun hs => turn_json (hjson hs))
      simp only [Nat.zero_add, Nat.add_comm 1] at hthis ⊢
      exact hthis
    · exact turns_agree h hjson fun _ => no_rest (.inr rfl)
    · exact turns_agree h hjson fun _ => no_rest (.inl rfl)
    · exact turns_agree h hjson fun _ => no_rest (.inl rfl)

theorem null_spelled : ∃ d : Json.Doc, d.bytes = nullBytes ∧ d.Ok Json.rfc8259 () none :=
  ⟨.lit nullBytes, rfl, .inr (.inr rfl)⟩

/-- Two tokens, of which the first stops; the model prefers it. -/
def stopFirstEngine : Engine where
  tokenizer := ⟨[0], [], fun _ => some ['a'], fun _ => none⟩
  gemmaFamily := true
  chatStopMarkers := []
  forward _ := some [.fin 5, .fin 1]
  unstable := stableDesc
  expF32 := stepExp
  toVec _ := ⟨nullBytes, null_spelled⟩

def greedyParams : SamplingParams where
  sampling := .greedy
  seed := 0
  maxTokens := 3
  jsonMode := false
  jsonSchema := none
  stopStrings := []
  collectLogprobs := none
  enableThinking := false
  reasoningBudget := none
  jsonPrimeBytes := []

def stopFirstRequest (relax : Bool) : Request :=
  ⟨stopFirstEngine, greedyParams, relax, [1], fun _ _ => true⟩

theorem loops_agree_stop_masked :
    Pointwise (fun _ => SameTurn) ((stopFirstRequest false).turns .scheduler)
      ((stopFirstRequest false).turns .streaming) := by
  refine (loops_agree_iff (stopFirstRequest false) (A := .scheduler) (B := .streaming) rfl rfl).mpr ?_
  intro i a b ha hb hforced
  constructor
  · intro _ hrelax
    cases hrelax
  · rintro (⟨h, -⟩ | ⟨-, h⟩) <;> cases h

/-- With the stop mask relaxed the scheduler loop opens with the stop token that
the streaming loop masks. -/
theorem relaxed_first_token_differs :
    Loop.scheduler.mayServe (stopFirstRequest true).params = true ∧
    Loop.blocking.mayServe (stopFirstRequest true).params = true ∧
    Loop.streaming.mayServe (stopFirstRequest true).params = true ∧
    ¬ Pointwise (fun _ => SameTurn) ((stopFirstRequest true).turns .scheduler)
      ((stopFirstRequest true).turns .streaming) := by
  refine ⟨rfl, rfl, rfl, ?_⟩
  intro h
  have hfirst : ((stopFirstRequest true).turns .scheduler)[0]?.map Turn.token = some 0 := by decide
  have hsecond : ((stopFirstRequest true).turns .streaming)[0]?.map Turn.token = some 1 := by decide
  obtain ⟨a, ha, hta⟩ := Option.map_eq_some_iff.mp hfirst
  obtain ⟨b, hb, htb⟩ := Option.map_eq_some_iff.mp hsecond
  have htoken := (h 0 a b ha hb).2
  rw [hta, htb] at htoken
  cases htoken

end Flambeau.Server.Generation
