import Flambeau.Server.LoopsAgree
import Flambeau.Runtime.SamplerSupport

namespace Flambeau.Server.Generation
open Flambeau.Runtime
open Flambeau.Json (Bytes)

/-- The bytes a token feeds to the constraint. -/
def tokenBytes (tokenizer : GgufTokenizer) (token : Nat) : Bytes :=
  ((tokenizer.decode [token]).map asBytes).getD []

def generatedBytes (tokenizer : GgufTokenizer) (tokens : List Nat) : Bytes :=
  tokens.flatMap (tokenBytes tokenizer)

/-- The constraint accepts the token's bytes. -/
def Feasible (e : Engine) (js : JsonConstraint) (token : Nat) : Prop :=
  (js.feedSlice (tokenBytes e.tokenizer token)).1 = true

/-- The prime bytes and the bytes of the tokens are a string the constraint
accepts. -/
def Accepted (e : Engine) (params : SamplingParams) (tokens : List Nat) : Prop :=
  ((jsonConstraint e params).feedSlice
    (params.jsonPrimeBytes ++ generatedBytes e.tokenizer tokens)).1 = true

/-- The string is a complete value. -/
def CompleteValue (e : Engine) (params : SamplingParams) (tokens : List Nat) : Prop :=
  Accepted e params tokens ∧ ((jsonConstraint e params).feedSlice
    (params.jsonPrimeBytes ++ generatedBytes e.tokenizer tokens)).2.isComplete = true

/-- After every token but a stop token the string is accepted, and where the loop
ends with a complete constraint on another token, the string is a complete
value. `tokens` came before the turns. -/
structure Good (e : Engine) (params : SamplingParams) (tokens : List Nat) (turns : List Turn)
    (last : After) : Prop where
  accepted : ∀ (k : Nat) (t : Turn), turns[k]? = some t → isStop e t.token = false →
    Accepted e params (tokens ++ (turns.take (k + 1)).map (·.token))
  complete : ∀ reason s, last = .finish reason s → jsonComplete s = true →
    (∀ t, turns.getLast? = some t → isStop e t.token = false) →
    CompleteValue e params (tokens ++ turns.map (·.token))

/-- The non-streaming loop emits no infeasible token in a JSON request. -/
def NeverInfeasible (r : Request) : Prop :=
  Good r.engine r.params [] (r.turns .blocking) (r.run .blocking).2

/-- A sampled turn on which the mask does its work: the sampler can tell the
masked tokens, and a token that the mask does not look at is at minus infinity,
stops the loop, or is feasible. -/
structure SampledOk (r : Request) (step : Nat) (t : Turn) (js : JsonConstraint) : Prop where
  drawable : Drawable r.params.sampling
    (r.params.sampling.view
      (maskJson r.engine (some js) (stopMasked r.engine r.relaxStopMask step t.logits))
      (historyAt step t.before)) t.before.rng.nextF32.1
  outside : ∀ (id : Nat) (v : F32),
    (stopMasked r.engine r.relaxStopMask step t.logits)[id]? = some v → v ≠ .negInf →
    (∀ p ∈ jsonCandidates r.engine.unstable (stopMasked r.engine r.relaxStopMask step t.logits)
      jsonMaskCandidates, p.1 ≠ id) →
    Feasible r.engine js id ∨ isStop r.engine id = true

/-- A turn that emits no infeasible token: a forced token is feasible or stops
the loop, and a sampled one is masked well. -/
def TurnOk (r : Request) (step : Nat) (t : Turn) : Prop :=
  ∀ js, t.before.json = some js →
    match forcedAt r.params step t.before with
    | some id => Feasible r.engine js id ∨ isStop r.engine id = true
    | none => SampledOk r step t js

theorem allowed_feasible {e : Engine} {js : JsonConstraint} {id : Nat}
    (h : jsonAllows js e.tokenizer id = true) : Feasible e js id := by
  unfold jsonAllows at h
  unfold Feasible tokenBytes
  split at h
  · cases h
  · rename_i text hdecode
    rw [hdecode]
    dsimp only at h
    split at h
    · rename_i hempty
      rw [Option.map_some, Option.getD_some, List.isEmpty_iff.mp hempty, JsonConstraint.feedSlice_nil]
    · split at h
      · cases h
      · rename_i hfed
        simpa using hfed

/-- An unmasked token is feasible or stops the loop. -/
theorem unmasked_feasible {r : Request} {t : Turn} {id : Nat} {v : F32} (h : SampledOk r step t js)
    (hv : (maskJson r.engine (some js)
      (stopMasked r.engine r.relaxStopMask step t.logits))[id]? = some v) (hne : v ≠ .negInf) :
    Feasible r.engine js id ∨ isStop r.engine id = true := by
  rw [maskJson, applyJsonMask_eq, maskStopIds_get] at hv
  split at hv
  · obtain ⟨w, -, rfl⟩ := Option.map_eq_some_iff.mp hv
    exact absurd rfl hne
  · rename_i hkept
    by_cases hcand : ∀ p ∈ jsonCandidates r.engine.unstable
        (stopMasked r.engine r.relaxStopMask step t.logits) jsonMaskCandidates, p.1 ≠ id
    · exact h.outside id v hv hne hcand
    · refine .inl (allowed_feasible ?_)
      apply Decidable.byContradiction
      intro hnot
      apply hcand
      rintro p hp rfl
      exact hkept (List.mem_map.mpr ⟨p, List.mem_filter.mpr ⟨hp, by simpa using hnot⟩, rfl⟩)

theorem generatedBytes_append (tokenizer : GgufTokenizer) (tokens : List Nat) (token : Nat) :
    generatedBytes tokenizer (tokens ++ [token]) =
      generatedBytes tokenizer tokens ++ tokenBytes tokenizer token := by
  simp [generatedBytes]

theorem feedToken_eq (tokenizer : GgufTokenizer) (js : JsonConstraint) (token : Nat) :
    feedToken tokenizer js token = (js.feedSlice (tokenBytes tokenizer token)).2 := by
  unfold feedToken tokenBytes
  cases tokenizer.decode [token] with
  | none => rw [Option.map_none, Option.getD_none, JsonConstraint.feedSlice_nil]
  | some text => rfl

/-- The constraint has been fed the prime bytes and the tokens, and took them. -/
def Fed (e : Engine) (params : SamplingParams) (tokens : List Nat) (js : JsonConstraint) : Prop :=
  (jsonConstraint e params).feedSlice
    (params.jsonPrimeBytes ++ generatedBytes e.tokenizer tokens) = (true, js)

theorem Fed.next {e : Engine} {params : SamplingParams} (h : Fed e params tokens js)
    (hf : Feasible e js token) :
    Fed e params (tokens ++ [token]) (feedToken e.tokenizer js token) := by
  unfold Fed
  rw [generatedBytes_append, ← List.append_assoc, JsonConstraint.feedSlice_append _ (by rw [h]), h,
    feedToken_eq]
  exact Prod.ext hf rfl

/-- The token of a turn that is ok is feasible or stops the loop. -/
theorem turn_feasible {r : Request} {s : State} {logits : List F32} (hjson : s.json = some js)
    (hok : TurnOk r step (Loop.blocking.turn r.engine r.params r.relaxStopMask step s logits).1) :
    let token := (Loop.blocking.turn r.engine r.params r.relaxStopMask step s logits).1.token
    Feasible r.engine js token ∨ isStop r.engine token = true := by
  obtain ⟨hbefore, -⟩ := turn_before .blocking r.engine r.params r.relaxStopMask step s logits
  have hthis := hok js (by rw [hbefore, hjson])
  rw [hbefore] at hthis
  dsimp only
  cases hf : forcedAt r.params step s with
  | some token =>
    rw [hf] at hthis
    rw [turn_forced .blocking r.engine r.relaxStopMask logits hf]
    exact hthis
  | none =>
    rw [hf, turn_sampled .blocking r.engine r.relaxStopMask logits hf] at hthis
    rw [turn_sampled .blocking r.engine r.relaxStopMask logits hf]
    dsimp only
    have hlogits : Loop.blocking.turnLogits r.engine r.relaxStopMask step s.json logits =
        maskJson r.engine (some js) (stopMasked r.engine r.relaxStopMask step logits) := by
      rw [turnLogits_blocking, hjson]
    obtain ⟨v, hv, hne⟩ := Sampling.sample_unmasked r.engine.unstable r.engine.expF32 s.rng
      hthis.drawable
    rw [← hlogits] at hv
    exact unmasked_feasible hthis (hlogits ▸ hv) hne

theorem Fed.accepted {e : Engine} {params : SamplingParams} (h : Fed e params tokens js) :
    Accepted e params tokens := by
  unfold Accepted
  rw [h]

/-- A loop that ends without another turn. -/
theorem Fed.good {e : Engine} {params : SamplingParams} (h : Fed e params tokens js) {last : After}
    (hlast : ∀ reason s, last = .finish reason s → s.json = some js) :
    Good e params tokens [] last := by
  refine ⟨fun k t hk => by simp at hk, ?_⟩
  intro reason s hs hcomplete _
  rw [jsonComplete, hlast reason s hs] at hcomplete
  rw [List.map_nil, List.append_nil]
  refine ⟨h.accepted, ?_⟩
  rw [h]
  exact hcomplete

/-- One turn before the others: its token is a stop token and the last one, or the
string stays accepted. -/
theorem good_cons {e : Engine} {params : SamplingParams} {t : Turn} {turns : List Turn} {last : After}
    (hstop : isStop e t.token = true → turns = [])
    (hgo : isStop e t.token = false → Accepted e params (tokens ++ [t.token]) ∧
      Good e params (tokens ++ [t.token]) turns last) :
    Good e params tokens (t :: turns) last := by
  constructor
  · intro k t' hk hnot
    cases k with
    | zero =>
      cases hk
      exact (hgo hnot).1
    | succ k =>
      cases hs : isStop e t.token with
      | true =>
        rw [hstop hs] at hk
        cases hk
      | false =>
        have hthis := (hgo hs).2.accepted k t' hk hnot
        rw [List.append_assoc] at hthis
        exact hthis
  · intro reason s hs hcomplete hlast
    cases hst : isStop e t.token with
    | true =>
      rw [hstop hst] at hlast
      rw [hlast t rfl] at hst
      cases hst
    | false =>
      have hthis := (hgo hst).2.complete reason s hs hcomplete (fun t' ht' => by
        apply hlast t'
        cases turns with
        | nil => cases ht'
        | cons u us => rw [List.getLast?_cons_cons]; exact ht')
      rw [List.append_assoc] at hthis
      exact hthis

/-- After the first token the non-streaming loop goes on or ends with the state of
the turn, and does not go on after a stop token. -/
theorem blocking_first {e : Engine} {client : ToolCallParser.Text → ToolCallParser.Text → Bool}
    {s : State} :
    (∀ s', Loop.blocking.afterFirst e client token s = .go s' → s' = s ∧ isStop e token = false) ∧
    (∀ reason s', Loop.blocking.afterFirst e client token s = .finish reason s' → s' = s) := by
  constructor
  · intro s' h
    rw [Loop.afterFirst] at h
    split at h
    · cases h
    · rename_i hnot
      cases h
      exact ⟨rfl, by simpa using hnot⟩
  · intro reason s' h
    rw [Loop.afterFirst] at h
    split at h
    · cases h
      rfl
    · cases h

/-- The same after a later token. -/
theorem blocking_step {e : Engine} {params : SamplingParams}
    {client : ToolCallParser.Text → ToolCallParser.Text → Bool} {relax : Bool} {s : State} :
    (∀ s', Loop.blocking.afterStep e params client relax step token s = .go s' →
      s' = s ∧ isStop e token = false) ∧
    (∀ reason s', Loop.blocking.afterStep e params client relax step token s = .finish reason s' →
      s' = s) := by
  constructor
  · intro s' h
    rw [Loop.afterStep] at h
    split at h
    · cases h
    · rename_i hnot
      split at h
      · cases h
      · split at h
        · cases h
        · cases h
          exact ⟨rfl, by simpa using hnot⟩
  · intro reason s' h
    rw [Loop.afterStep] at h
    split at h
    · cases h
      rfl
    · split at h
      · cases h
        rfl
      · split at h
        · cases h
          rfl
        · cases h

/-- A turn that is ok and the turns after it. -/
theorem turn_good {r : Request} {step : Nat} {s : State} {logits : List F32} {js : JsonConstraint}
    (hjson : s.json = some js) (hfed : Fed r.engine r.params s.generated js)
    (hok : TurnOk r step (Loop.blocking.turn r.engine r.params r.relaxStopMask step s logits).1)
    {turns : List Turn} {last : After}
    (hstop : isStop r.engine
      (Loop.blocking.turn r.engine r.params r.relaxStopMask step s logits).1.token = true → turns = [])
    (hrest : ∀ js', (Loop.blocking.turn r.engine r.params r.relaxStopMask step s logits).2.json = some js' →
      Fed r.engine r.params
        (Loop.blocking.turn r.engine r.params r.relaxStopMask step s logits).2.generated js' →
      Good r.engine r.params
        (Loop.blocking.turn r.engine r.params r.relaxStopMask step s logits).2.generated turns last) :
    Good r.engine r.params s.generated
      ((Loop.blocking.turn r.engine r.params r.relaxStopMask step s logits).1 :: turns) last := by
  obtain ⟨hgen, hafter⟩ := turn_after .blocking r.engine r.params r.relaxStopMask step s logits
  have hfeasible := turn_feasible hjson hok
  refine good_cons hstop fun hnot => ?_
  have hnext := hfed.next (hfeasible.resolve_right (by rw [hnot]; decide))
  rw [hjson] at hafter
  rw [← hgen] at hnext ⊢
  exact ⟨hnext.accepted, hrest _ hafter hnext⟩

theorem steps_good {r : Request} (n : Nat) {step : Nat} (hstep : step ≠ 0) {s : State}
    {js : JsonConstraint} (hjson : s.json = some js) (hfed : Fed r.engine r.params s.generated js)
    (hok : ∀ (k : Nat) (t : Turn), (r.steps .blocking s step n).1[k]? = some t → TurnOk r (step + k) t) :
    Good r.engine r.params s.generated (r.steps .blocking s step n).1 (r.steps .blocking s step n).2 := by
  induction n generalizing step s js with
  | zero =>
    refine hfed.good ?_
    intro reason s' h
    cases h
    exact hjson
  | succ n ih =>
    rw [Request.steps] at hok ⊢
    cases hforward : r.engine.forward (r.promptIds ++ s.generated) with
    | none => exact hfed.good (fun reason s' h => by cases h)
    | some logits =>
      rw [hforward] at hok
      have hturn : Loop.blocking.stepTurn r.engine r.params r.relaxStopMask step s logits =
          Loop.blocking.turn r.engine r.params r.relaxStopMask step s logits := by
        rw [Loop.turn, if_neg hstep]
      dsimp only at hok ⊢
      rw [hturn] at hok ⊢
      split at hok
      · rename_i s' hgo
        obtain ⟨rfl, hnot⟩ := blocking_step.1 s' hgo
        have hhead : TurnOk r step _ := hok 0 _ rfl
        refine turn_good hjson hfed hhead (fun hs => by rw [hnot] at hs; cases hs) ?_
        intro js' hjs' hfed'
        refine ih (Nat.succ_ne_zero step) hjs' hfed' ?_
        intro k t hk
        have hthis := hok (k + 1) t hk
        rwa [Nat.add_comm k 1, ← Nat.add_assoc] at hthis
      · have hhead : TurnOk r step _ := hok 0 _ rfl
        refine turn_good hjson hfed hhead (fun _ => rfl) ?_
        intro js' hjs' hfed'
        refine hfed'.good ?_
        intro reason s' hfinish
        dsimp only at hfinish
        rw [blocking_step.2 reason s' hfinish]
        exact hjs'

/-- A greedy turn over a vocabulary that the mask looks at whole. -/
theorem small_turn_ok {r : Request} {t : Turn} (hgreedy : r.params.sampling.isGreedy = true)
    (hforced : forcedAt r.params step t.before = none)
    (hsmall : (stopMasked r.engine r.relaxStopMask step t.logits).length ≤ jsonMaskCandidates)
    (hview : ∀ v ∈ r.params.sampling.view
      (maskJson r.engine t.before.json (stopMasked r.engine r.relaxStopMask step t.logits))
      (historyAt step t.before), v.Logit)
    (hsome : ∃ q, .fin q ∈ r.params.sampling.view
      (maskJson r.engine t.before.json (stopMasked r.engine r.relaxStopMask step t.logits))
      (historyAt step t.before)) : TurnOk r step t := by
  intro js hjs
  rw [hforced]
  rw [hjs] at hview hsome
  refine ⟨⟨hview, hsome, .inl hgreedy⟩, ?_⟩
  intro id v hv _ hnone
  obtain ⟨p, hp, hid⟩ := candidates_all r.engine.unstable hsmall hv
  exact absurd hid (hnone p hp)

/-- The tokens `{` and `}`, the first preferred. -/
def bracesEngine : Engine :=
  { stopFirstEngine with
    tokenizer :=
      ⟨[], [], fun ids => some (ids.map fun id => if id = 0 then '{' else '}'), fun _ => none⟩
    forward _ := some [.fin 1, .fin 0] }

def bracesRequest : Request :=
  ⟨bracesEngine, { greedyParams with jsonMode := true, maxTokens := 2 }, true, [1], fun _ _ => true⟩

def deepLogits : List F32 := List.replicate 2049 (.fin 1) ++ [.fin 0]

theorem deepLogits_length : deepLogits.length = 2050 := by
  rw [deepLogits, List.length_append, List.length_replicate, List.length_singleton]

/-- A vocabulary of 2050 tokens of which only the last, `{`, may open an object;
the model prefers all others. -/
def deepEngine : Engine :=
  { stopFirstEngine with
    tokenizer := ⟨[], [], fun ids => some (if ids = [2049] then ['{'] else ['x']), fun _ => none⟩
    forward _ := some deepLogits }

def deepRequest : Request :=
  ⟨deepEngine, { greedyParams with jsonMode := true, maxTokens := 1 }, true, [1], fun _ _ => true⟩

/-- The mask looks at the first 2048 tokens only. -/
theorem deep_candidates {p : Nat × F32} (hp : p ∈ jsonCandidates stableDesc deepLogits 2048) :
    p.1 < 2048 := by
  have hsorted : (deepLogits.zipIdx.map fun p => (p.2, p.1)).Pairwise
      fun a b => descLe a b = true := by
    have hvalues : deepLogits.Pairwise fun a b => descLe (0, a) (0, b) = true := by
      rw [deepLogits, List.pairwise_append]
      refine ⟨List.pairwise_replicate.mpr (.inr (by decide)), List.pairwise_singleton _ _, ?_⟩
      intro a ha b hb
      rw [List.eq_of_mem_replicate ha, List.mem_singleton.mp hb]
      decide
    have hmap : (deepLogits.zipIdx.map fun p => (p.2, p.1)).map (·.2) = deepLogits := by
      rw [List.map_map]
      exact List.zipIdx_map_fst 0 deepLogits
    rw [← hmap, List.pairwise_map] at hvalues
    exact hvalues
  unfold jsonCandidates at hp
  rw [deepLogits_length] at hp
  simp only [List.length_map, List.length_zipIdx, deepLogits_length] at hp
  rw [if_pos (by decide)] at hp
  have hselect : stableDesc.select 2048 (deepLogits.zipIdx.map fun p => (p.2, p.1)) =
      deepLogits.zipIdx.map fun p => (p.2, p.1) := List.mergeSort_of_pairwise hsorted
  rw [show min 2048 2050 = 2048 from rfl, hselect] at hp
  obtain ⟨i, hi, rfl⟩ := List.mem_take_iff_getElem.mp hp
  have hi' : i < 2048 := by omega
  simpa using hi'

/-- The logits after the mask. -/
def deepMasked : List F32 :=
  applyJsonMaskToLogits stableDesc (.object .new) deepEngine.tokenizer deepLogits 2048

theorem deepMasked_get (i : Nat) :
    deepMasked[i]? = deepLogits[i]? ∨ deepMasked[i]? = deepLogits[i]?.map fun _ => .negInf := by
  rw [deepMasked, applyJsonMask_eq, maskStopIds_get]
  split
  · exact .inr rfl
  · exact .inl rfl

theorem deepMasked_logit {v : F32} (hv : v ∈ deepMasked) : v.Logit := by
  obtain ⟨i, hi⟩ := List.getElem?_of_mem hv
  rcases deepMasked_get i with h | h
  · rw [h] at hi
    rcases List.mem_append.mp (List.mem_of_getElem? hi) with hmem | hmem
    · rw [List.eq_of_mem_replicate hmem]
      trivial
    · rw [List.mem_singleton.mp hmem]
      trivial
  · rw [h] at hi
    obtain ⟨w, -, rfl⟩ := Option.map_eq_some_iff.mp hi
    trivial

/-- A token past the candidates keeps its logit. -/
theorem deepMasked_one : F32.fin 1 ∈ deepMasked := by
  have hnot : 2048 ∉ jsonMasked stableDesc (.object .new) deepEngine.tokenizer deepLogits 2048 := by
    intro hmem
    obtain ⟨p, hp, hid⟩ := List.mem_map.mp hmem
    have hlt := deep_candidates (List.mem_filter.mp hp).1
    omega
  refine List.mem_of_getElem? (i := 2048) ?_
  rw [deepMasked, applyJsonMask_eq, maskStopIds_get, if_neg hnot, deepLogits,
    List.getElem?_append_left (by rw [List.length_replicate]; decide), List.getElem?_replicate,
    if_pos (by decide)]

theorem deep_token : argmax deepMasked ≠ 2049 := by
  intro heq
  obtain ⟨a, ha, hmax⟩ := Sampling.argmax_above (fun v hv => deepMasked_logit hv) deepMasked_one
  have hlast : deepLogits[2049]? = some (.fin 0) := by
    rw [deepLogits, List.getElem?_append_right (Nat.le_of_eq List.length_replicate),
      List.length_replicate]
    rfl
  rw [heq] at ha
  rcases deepMasked_get 2049 with h | h
  · rw [h, hlast] at ha
    cases ha
    exact absurd (hmax 1 deepMasked_one) (by decide)
  · rw [h, hlast] at ha
    cases ha

theorem greedy_sample (U : UnstableDesc) (E : ExpF32) (rng : Rng) (logits : List F32)
    (history : List Nat) : (rng.sample U E logits .greedy history).1 = argmax logits := rfl

end Flambeau.Server.Generation
