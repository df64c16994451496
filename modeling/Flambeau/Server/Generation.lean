import Flambeau.Server.JsonMask

namespace Flambeau.Server.Generation
open Flambeau.Runtime
open Flambeau.Json (Bytes)
open ToolCallParser (Text byteLen splitByte isCharBoundary trimEnd thinkOpen thinkClose)
open Flambeau.Stream (find)

inductive ReasoningStyle where
  | channel
  | thinkTag
deriving DecidableEq

structure ReasoningMarkers where
  style : ReasoningStyle
  opening : Text
  closing : Text

/-- `reasoning_markers_for`. -/
def reasoningMarkersFor (gemmaFamily : Bool) : ReasoningMarkers :=
  if gemmaFamily then ⟨.channel, "<|channel>".toList, "<channel|>".toList⟩
  else ⟨.thinkTag, thinkOpen, thinkClose⟩

/-- `min_response_tokens_for`. -/
def minResponseTokensFor (gemmaFamily : Bool) : Nat := if gemmaFamily then 2 else 24

/-- `stop_bias_for`. -/
def stopBiasFor (gemmaFamily : Bool) : F32 := if gemmaFamily then .fin 0 else .fin 3

/-- What serves a request: the tokenizer, the model's arch, its logits as a
function of the tokens so far (`none` where the forward fails), the standard
library's sorts and `exp`. -/
structure Engine where
  tokenizer : GgufTokenizer
  gemmaFamily : Bool
  chatStopMarkers : List Text
  forward : List Nat → Option (List F32)
  unstable : UnstableDesc
  expF32 : ExpF32
  /-- `serde_json::to_vec`, for a schema's literals. -/
  toVec : JsonSchema.Value → JsonSchema.Literal

structure SamplingParams where
  sampling : Sampling
  seed : UInt64
  maxTokens : Nat
  jsonMode : Bool
  jsonSchema : Option JsonSchema.Value
  stopStrings : List Text
  collectLogprobs : Option Nat
  enableThinking : Bool
  reasoningBudget : Option Nat
  jsonPrimeBytes : Bytes

/-- `tokens_contain`. -/
def tokensContain (haystack needle : List Nat) : Bool :=
  !needle.isEmpty && (find needle haystack).isSome

structure ReasoningCloser where
  closeIds : List Nat
  queue : List Nat
  fired : Bool
deriving DecidableEq

/-- `next_forced`. -/
def ReasoningCloser.nextForced (c : ReasoningCloser) (generated : List Nat) (budget : Option Nat) :
    Option Nat × ReasoningCloser :=
  let fires := c.queue.isEmpty && !c.fired && !c.closeIds.isEmpty &&
    budget.any (· ≤ generated.length) && !tokensContain generated c.closeIds
  let c := if fires then { c with fired := true, queue := c.closeIds } else c
  match c.queue with
  | [] => (none, c)
  | id :: queue => (some id, { c with queue := queue })

/-- `reasoning_close_ids`. -/
def reasoningCloseIds (e : Engine) (params : SamplingParams) : List Nat :=
  if !(params.enableThinking && params.reasoningBudget.isSome) then []
  else (e.tokenizer.encode (reasoningMarkersFor e.gemmaFamily).closing).getD []

/-- The incremental detokenizer of the streaming loop. -/
structure StreamState where
  decodeCursor : Nat
  /-- `pending_emitted_in_segment`, in bytes. -/
  pending : Nat
  emittedText : Text
deriving DecidableEq

/-- What a loop carries from step to step; `json` is the non-streaming loop's and
`stream` the streaming one's. -/
structure State where
  rng : Rng
  closer : ReasoningCloser
  generated : List Nat
  json : Option JsonConstraint
  stream : StreamState

/-- The constraint of a JSON request. -/
def jsonConstraint (e : Engine) (params : SamplingParams) : JsonConstraint :=
  match params.jsonSchema with
  | some schema => .schema (.new e.toVec schema)
  | none => .object .new

/-- The constraint before the first token. -/
def jsonStart (e : Engine) (params : SamplingParams) : Option JsonConstraint :=
  if params.jsonMode then some ((jsonConstraint e params).feedSlice params.jsonPrimeBytes).2
  else none

def start (e : Engine) (params : SamplingParams) : State where
  rng := .fromSeed params.seed
  closer := ⟨reasoningCloseIds e params, [], false⟩
  generated := []
  json := jsonStart e params
  stream := ⟨0, 0, []⟩

/-- Candidates that `apply_json_mask_to_logits` looks at. -/
def jsonMaskCandidates : Nat := 2048

def maskJson (e : Engine) (json : Option JsonConstraint) (logits : List F32) : List F32 :=
  match json with
  | some js => applyJsonMaskToLogits e.unstable js e.tokenizer logits jsonMaskCandidates
  | none => logits

/-- The stop mask of a decode step, as all three loops have it. -/
def maskStep (e : Engine) (relax : Bool) (step : Nat) (logits : List F32) : List F32 :=
  let forceMask := decide (step < minResponseTokensFor e.gemmaFamily) && !relax
  if !relax then maskOrBiasStopIds e.tokenizer forceMask (stopBiasFor e.gemmaFamily) logits
  else logits

/-- The three decode loops. -/
inductive Loop where
  | scheduler
  | blocking
  | streaming
deriving DecidableEq

/-- The logits that the first token is sampled from. -/
def Loop.firstLogits (e : Engine) (relax : Bool) (json : Option JsonConstraint)
    (logits : List F32) : Loop → List F32
  | .scheduler => if !relax then maskStopIds e.tokenizer.stopIds logits else logits
  | .blocking => maskJson e json (maskStopIds e.tokenizer.stopIds logits)
  | .streaming => maskStopIds e.tokenizer.stopIds logits

/-- The logits that a later token is sampled from. -/
def Loop.stepLogits (e : Engine) (relax : Bool) (step : Nat) (json : Option JsonConstraint)
    (logits : List F32) : Loop → List F32
  | .scheduler => maskStep e relax step logits
  | .blocking => maskJson e json (maskStep e relax step logits)
  | .streaming => maskStep e relax step logits

/-- One token's turn: the state before it, the model's logits, the logits passed
to the sampler (`none` where the token is forced), and the token. -/
structure Turn where
  before : State
  logits : List F32
  passed : Option (List F32)
  token : Nat

/-- The feed of the chosen token's text; its result is dropped. -/
def feedToken (tokenizer : GgufTokenizer) (js : JsonConstraint) (token : Nat) : JsonConstraint :=
  match tokenizer.decode [token] with
  | some text => (js.feedSlice (asBytes text)).2
  | none => js

/-- The state once a token is chosen. -/
def State.chose (s : State) (e : Engine) (rng : Rng) (closer : ReasoningCloser) (token : Nat) :
    State :=
  { s with
    rng := rng
    closer := closer
    generated := s.generated ++ [token]
    json := s.json.map fun js => feedToken e.tokenizer js token }

/-- The first token, sampled with no history. -/
def Loop.firstTurn (loop : Loop) (e : Engine) (params : SamplingParams) (relax : Bool) (s : State)
    (logits : List F32) : Turn × State :=
  let masked := loop.firstLogits e relax s.json logits
  let (token, rng) := s.rng.sample e.unstable e.expF32 masked params.sampling []
  (⟨s, logits, some masked, token⟩, s.chose e rng s.closer token)

/-- A later token: forced, or sampled. -/
def Loop.stepTurn (loop : Loop) (e : Engine) (params : SamplingParams) (relax : Bool) (step : Nat)
    (s : State) (logits : List F32) : Turn × State :=
  let masked := loop.stepLogits e relax step s.json logits
  match s.closer.nextForced s.generated params.reasoningBudget with
  | (some forced, closer) => (⟨s, logits, none, forced⟩, s.chose e s.rng closer forced)
  | (none, closer) =>
    let (token, rng) := s.rng.sample e.unstable e.expF32 masked params.sampling s.generated
    (⟨s, logits, some masked, token⟩, s.chose e rng closer token)

/-- What a loop does after a token. -/
inductive After where
  | go (s : State)
  | finish (reason : String) (s : State)
  | fail
  /-- A slice that is not on a character boundary. -/
  | panic

def isStop (e : Engine) (token : Nat) : Bool := e.tokenizer.stopIds.contains token

def contains (text pat : Text) : Bool := (find pat text).isSome

/-- The reasoning markers whose text ends a reply. -/
def leakMarkers : List Text :=
  ["</think>".toList, "<end_thought>".toList, "<end_think>".toList, "</thought>".toList]

def userStopMax (params : SamplingParams) : Nat :=
  (params.stopStrings.map byteLen).foldl max 0

/-- The stop-string check of the scheduler and the non-streaming loop, on the
text of the last tokens. -/
def tailStops (e : Engine) (params : SamplingParams) (relax : Bool) (step : Nat)
    (generated : List Nat) : Bool :=
  let needUserCheck := !params.stopStrings.isEmpty
  if (needUserCheck || !relax) && (step % 4 == 0 || decide (minResponseTokensFor e.gemmaFamily ≤ step)) then
    let tokenWindow := max 16 (min (userStopMax params / 2) 64)
    match e.tokenizer.decode (generated.drop (generated.length - tokenWindow)) with
    | none => false
    | some tail =>
      let markerHit := !relax && !params.enableThinking && leakMarkers.any (contains tail)
      let archHit := e.chatStopMarkers.any (contains tail)
      let userHit := params.stopStrings.any (contains tail)
      markerHit || archHit || userHit
  else false

/-- The first character boundary from a byte offset on. -/
def ceilCharBoundary (text : Text) (start : Nat) : Nat :=
  ((List.range (byteLen text - start)).find? fun k => isCharBoundary text (start + k)).map (start + ·)
    |>.getD (byteLen text)

/-- The tail of the emitted text that the streaming loop looks for stops in. -/
def tailWindow (params : SamplingParams) (emitted : Text) : Text :=
  let windowBytes := max 64 (userStopMax params + 16)
  if windowBytes < byteLen emitted then
    ((splitByte (ceilCharBoundary emitted (byteLen emitted - windowBytes)) emitted).map (·.2)).getD []
  else emitted

/-- The stop-string check of the streaming loop. -/
def windowStops (params : SamplingParams) (relax : Bool) (emitted : Text) : Bool :=
  if !relax || !params.stopStrings.isEmpty then
    let tail := tailWindow params emitted
    let markerHit := !relax && !params.enableThinking && leakMarkers.any (contains tail)
    let userHit := params.stopStrings.any (contains tail)
    markerHit || userHit
  else false

/-- The character a decoder puts for a piece of one. -/
def replacement : Char := Char.ofNat 0xFFFD

/-- `trim_end_matches` of the replacement character. -/
def trimReplacement (text : Text) : Text := (text.reverse.dropWhile (· == replacement)).reverse

/-- `push_and_emit`, after the push. `client` is the reader of the deltas, given
what it has read. -/
def pushAndEmit (e : Engine) (client : Text → Text → Bool) (token : Nat) (s : State) : After :=
  let stopHit := isStop e token
  let stop := if stopHit then s.generated.length - 1 else s.generated.length
  let done (alive : Bool) (stream : StreamState) : After :=
    if alive then .go { s with stream := stream } else .finish "stop" { s with stream := stream }
  if stop ≤ s.stream.decodeCursor then done (!stopHit) s.stream
  else
    match e.tokenizer.decode ((s.generated.take stop).drop s.stream.decodeCursor) with
    | none => .fail
    | some raw =>
      let safe := trimReplacement raw
      let close (stream : StreamState) : After :=
        done (!stopHit)
          (if byteLen safe = byteLen raw then { stream with decodeCursor := stop, pending := 0 }
          else stream)
      if s.stream.pending < byteLen safe then
        match splitByte s.stream.pending safe with
        | none => .panic
        | some (_, delta) =>
          if !client s.stream.emittedText delta then done false s.stream
          else close { s.stream with emittedText := s.stream.emittedText ++ delta, pending := byteLen safe }
      else close s.stream

/-- `is_complete` of the constraint the loop carries. -/
def jsonComplete (s : State) : Bool := (s.json.map (·.isComplete)).getD false

/-- After the first token. -/
def Loop.afterFirst (loop : Loop) (e : Engine) (client : Text → Text → Bool) (token : Nat)
    (s : State) : After :=
  match loop with
  | .scheduler => if isStop e token then .finish "stop" s else .go s
  | .blocking => if isStop e token then .finish "stop" s else .go s
  | .streaming => pushAndEmit e client token s

/-- After a later token. The scheduler loop drops a stop token before it is
pushed. -/
def Loop.afterStep (loop : Loop) (e : Engine) (params : SamplingParams)
    (client : Text → Text → Bool) (relax : Bool) (step token : Nat) (s : State) : After :=
  match loop with
  | .scheduler =>
    if isStop e token then .finish "stop" { s with generated := s.generated.dropLast }
    else if params.maxTokens ≤ s.generated.length then .finish "length" s
    else if tailStops e params relax step s.generated then .finish "stop" s
    else .go s
  | .blocking =>
    if isStop e token then .finish "stop" s
    else if jsonComplete s then .finish "stop" s
    else if tailStops e params relax step s.generated then .finish "stop" s
    else .go s
  | .streaming =>
    match pushAndEmit e client token s with
    | .go s => if windowStops params relax s.stream.emittedText then .finish "stop" s else .go s
    | stopped => stopped

/-- The request that a loop serves. -/
structure Request where
  engine : Engine
  params : SamplingParams
  relaxStopMask : Bool
  promptIds : List Nat
  client : Text → Text → Bool

namespace Request

variable (r : Request)

/-- The decode loop from a step on: the turns it takes and how it ends. -/
def steps (loop : Loop) (s : State) (step : Nat) : Nat → List Turn × After
  | 0 => ([], .finish "length" s)
  | n + 1 =>
    match r.engine.forward (r.promptIds ++ s.generated) with
    | none => ([], .fail)
    | some logits =>
      let (turn, s) := loop.stepTurn r.engine r.params r.relaxStopMask step s logits
      match loop.afterStep r.engine r.params r.client r.relaxStopMask step turn.token s with
      | .go s =>
        let (turns, last) := steps loop s (step + 1) n
        (turn :: turns, last)
      | ended => ([turn], ended)

/-- `run_completion_scheduler_pp_blocking`, `run_completion_blocking_ids` and
`run_completion_blocking_streaming`: all turns, the first token's first. -/
def run (loop : Loop) : List Turn × After :=
  if r.promptIds.isEmpty then ([], .fail)
  else
    match r.engine.forward r.promptIds with
    | none => ([], .fail)
    | some logits =>
      let (turn, s) := loop.firstTurn r.engine r.params r.relaxStopMask (start r.engine r.params) logits
      match loop.afterFirst r.engine r.client turn.token s with
      | .go s =>
        let (turns, last) := r.steps loop s 1 (r.params.maxTokens - 1)
        (turn :: turns, last)
      | ended => ([turn], ended)

def turns (loop : Loop) : List Turn := (r.run loop).1

end Request
end Flambeau.Server.Generation
