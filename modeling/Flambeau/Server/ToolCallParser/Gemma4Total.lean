import Flambeau.Server.ToolCallParser.Gemma4Pieces
import Flambeau.Server.ToolCallParser.Gemma4ScanBytes
import Flambeau.Stream.Loop
import Flambeau.Stream.Safe

namespace Flambeau.Server.ToolCallParser.Gemma4
open Flambeau.Stream Flambeau.Stream.Machine Flambeau.Runtime.JsonSchema

/-! Every other slice of the parser is in place. -/

theorem stepInArgs_bytes (serde : GemmaSerde) (p : Gemma4ToolCallParser) :
    Bytes.stepInArgs serde p = stepInArgs serde p := by
  have hscan := scanArgs_bytes [] p.buf p.argsDepth p.argsInString (Nat.lt_succ_self (byteLen p.buf))
  rw [List.nil_append, byteLen_nil] at hscan
  unfold Bytes.stepInArgs stepInArgs
  rw [hscan]
  cases hr : scanArgs p.argsDepth p.argsInString p.buf with
  | none => rfl
  | some r =>
    have hsplit := scanArgs_split hr
    rw [Option.map_some, Option.bind_some, Option.map_some]
    dsimp only
    rw [Nat.zero_add]
    cases hclosed : r.closed with
    | true =>
      rw [hclosed, if_pos rfl] at hsplit
      have hto : sliceTo p.buf (byteLen r.consumed) = some r.consumed := by
        rw [hsplit]
        exact sliceTo_append _ _
      have hfrom : sliceFrom p.buf (byteLen r.consumed + 1) = some r.rest := by
        have hbrace : byteLen r.consumed + 1 = byteLen (r.consumed ++ ['}']) := by
          rw [byteLen_append]
          rfl
        rw [hsplit, hbrace, ← List.singleton_append, ← List.append_assoc]
        exact sliceFrom_front _ _
      rw [hto, Option.bind_some, if_pos rfl, if_pos rfl, hfrom, Option.bind_some, parseArgsBody_bytes, Option.map_some]
    | false =>
      rw [hclosed, if_neg Bool.false_ne_true] at hsplit
      have hto : sliceTo p.buf (byteLen r.consumed) = some r.consumed := by
        rw [hsplit]
        exact sliceTo_append _ _
      have hfrom : sliceFrom p.buf (byteLen r.consumed) = some r.rest := by
        rw [hsplit]
        exact sliceFrom_front _ _
      have hmoved : decide (0 < byteLen r.consumed) = !r.consumed.isEmpty := by
        cases hc : r.consumed with
        | nil => rfl
        | cons c s => exact decide_eq_true (byteLen_pos (List.cons_ne_nil c s))
      rw [hto, Option.bind_some, if_neg Bool.false_ne_true, if_neg Bool.false_ne_true, hfrom, Option.map_some, hmoved]

/-- By bytes or by characters, the steps are the same. -/
theorem step_bytes (serde : GemmaSerde) (fin : Bool) (p : Gemma4ToolCallParser) :
    Bytes.step serde fin p = step serde fin p := by
  unfold Bytes.step step
  cases p.state with
  | text => exact stepText_bytes p fin
  | inChannel => exact stepInChannel_bytes p fin
  | inCallHeader => exact stepInCallHeader_bytes serde p
  | inArgs => exact stepInArgs_bytes serde p
  | awaitingClose => exact stepAwaitingClose_bytes p
  | inToolCode => exact stepInToolCode_bytes serde p fin
  | inToolResponse => exact stepInToolResponse_bytes p fin
  | inTurnHeader => exact stepInTurnHeader_bytes p fin

theorem consumeEcho_bytes (fin : Bool) (buf : Text) (hrounds : byteLen buf < rounds) :
    Bytes.consumeEcho fin rounds buf = some (consumeEcho fin buf) := by
  induction rounds generalizing buf with
  | zero => exact absurd hrounds (Nat.not_lt_zero _)
  | succ rounds ih =>
    rw [Bytes.consumeEcho, consumeEcho]
    cases hf : find ['\n'] buf with
    | none =>
      rw [findByte_none hf]
      dsimp only
      split
      · rfl
      split <;> rfl
    | some nl =>
      have hbehind : byteAt buf (nl + 1) = byteAt buf nl + 1 := find_behind hf
      have hlen := byteLen_append (buf.take (nl + 1)) (buf.drop (nl + 1))
      rw [List.take_append_drop] at hlen
      have hpos : 0 < byteLen (buf.take (nl + 1)) := by
        change 0 < byteAt buf (nl + 1)
        omega
      rw [findByte_some hf]
      dsimp only
      rw [sliceTo_at, Option.bind_some]
      by_cases hline : isScaffoldingLine (buf.take nl) = true
      · rw [if_pos hline, if_pos hline, ← hbehind, sliceFrom_at, Option.bind_some, ih _ (by omega)]
      · rw [if_neg hline, if_neg hline]

/-- With its guard as without it. -/
theorem guardedStep_bytes (serde : GemmaSerde) (fin : Bool) (p : Gemma4ToolCallParser) :
    Bytes.guardedStep serde fin p = guardedStep serde fin p := by
  unfold Bytes.guardedStep guardedStep
  cases hpending : p.pendingThoughtEcho with
  | true =>
    rw [if_pos rfl, if_pos rfl, consumeEcho_bytes fin p.buf (Nat.lt_succ_self _)]
    unfold tryConsumeEchoPrefix
    rw [if_pos hpending]
    rfl
  | false => exact step_bytes serde fin p

/-! What the look for a quote cuts. -/

/-- The places a scan of the arguments comes to. -/
inductive Visits : Nat → Bool → Text → Text → Prop
  | here : Visits depth inString w w
  | on : argStep depth inString c s = .advance more depth' inString' → Visits depth' inString' (s.drop more) w →
      Visits depth inString (c :: s) w

/-- Each look of a scan has whole characters. -/
def ScansWhole (depth : Nat) (inString : Bool) (s : Text) : Prop := ∀ w, Visits depth inString s w → LooksWhole w

theorem argStep_fine {c : Char} (h : argStep depth inString c s ≠ .fault) : lookaheadFaults (c :: s) = false := by
  apply eq_false_of_ne_true
  intro hfault
  exact h (by rw [argStep, if_pos hfault])

theorem argStep_fault {c : Char} (h : argStep depth inString c s = .fault) : lookaheadFaults (c :: s) = true := by
  apply Decidable.byContradiction
  intro hfine
  unfold argStep at h
  rw [if_neg hfine] at h
  repeat' split at h
  all_goals cases h

theorem scanArgs_some (depth : Nat) (inString : Bool) (s : Text) :
    (scanArgs depth inString s).isSome = true ↔ ScansWhole depth inString s := by
  cases s with
  | nil =>
    rw [scanArgs]
    refine iff_of_true rfl ?_
    rintro w hw
    cases hw
    exact ⟨fun h => absurd h (by decide), fun h => absurd h (by decide)⟩
  | cons c s =>
    rw [scanArgs_cons]
    have hlooks := lookaheadFaults_whole c s
    cases hact : argStep depth inString c s with
    | fault =>
      refine iff_of_false (fun h => by cases h) fun h => ?_
      have hfine := hlooks.mpr (h _ .here)
      rw [argStep_fault hact] at hfine
      cases hfine
    | hold =>
      refine iff_of_true rfl ?_
      rintro w hw
      cases hw with
      | here => exact hlooks.mp (argStep_fine (by rw [hact]; intro h; cases h))
      | on hon _ =>
        rw [hact] at hon
        cases hon
    | close =>
      refine iff_of_true rfl ?_
      rintro w hw
      cases hw with
      | here => exact hlooks.mp (argStep_fine (by rw [hact]; intro h; cases h))
      | on hon _ =>
        rw [hact] at hon
        cases hon
    | advance more depth' inString' =>
      dsimp only
      rw [Option.isSome_map, scanArgs_some]
      constructor
      · intro h w hw
        cases hw with
        | here => exact hlooks.mp (argStep_fine (by rw [hact]; intro h; cases h))
        | on hon hw =>
          rw [hact] at hon
          cases hon
          exact h w hw
      · intro h w hw
        exact h w (.on hact hw)
termination_by s.length
decreasing_by
  rw [List.length_drop, List.length_cons]
  omega

/-- A step that scans arguments looks at whole characters only. -/
def LooksInPlace (_fin : Bool) (p : Gemma4ToolCallParser) : Prop :=
  p.pendingThoughtEcho = false → p.state = .inArgs → ScansWhole p.argsDepth p.argsInString p.buf

theorem guardedStep_some (serde : GemmaSerde) (fin : Bool) (p : Gemma4ToolCallParser) :
    (guardedStep serde fin p).isSome = true ↔ LooksInPlace fin p := by
  unfold guardedStep LooksInPlace
  cases p.pendingThoughtEcho with
  | true => exact iff_of_true rfl (fun h => by cases h)
  | false =>
    rw [if_neg Bool.false_ne_true]
    unfold step
    cases hs : p.state with
    | inArgs =>
      dsimp only
      rw [stepInArgs, Option.isSome_map, scanArgs_some]
      exact ⟨fun h _ _ => h, fun h => h rfl rfl⟩
    | text => exact iff_of_true rfl (fun _ h => by cases h)
    | inChannel => exact iff_of_true rfl (fun _ h => by cases h)
    | inCallHeader => exact iff_of_true rfl (fun _ h => by cases h)
    | awaitingClose => exact iff_of_true rfl (fun _ h => by cases h)
    | inToolCode => exact iff_of_true rfl (fun _ h => by cases h)
    | inToolResponse => exact iff_of_true rfl (fun _ h => by cases h)
    | inTurnHeader => exact iff_of_true rfl (fun _ h => by cases h)

/-! Whole runs. -/

/-- The loop of the parser as the source has it, by bytes. -/
def byteLoop (serde : GemmaSerde) : Loop Char ParserEvent Gemma4ToolCallParser where
  feed p chunk := { p with buf := p.buf ++ chunk }
  step := Bytes.guardedStep serde
  flush := flush

theorem byteLoop_is (serde : GemmaSerde) : (byteLoop serde).Is (guarded serde) where
  feed := rfl
  step := by
    funext fin p
    exact guardedStep_bytes serde fin p
  flush := rfl

/-- A run has no slice that is out of place, just when no scan of arguments takes its look for a
quote, five bytes long, across or from inside a longer character. -/
theorem gemma4_total_iff (serde : GemmaSerde) (pending : Bool) (chunks : List Text) :
    (∃ n, ∀ steps, n ≤ steps → ((byteLoop serde).run steps (withThoughtEchoGuard pending) chunks).isSome = true) ↔
      (guarded serde).Safely LooksInPlace (withThoughtEchoGuard pending) chunks := by
  obtain ⟨n, hn⟩ := (byteLoop_is serde).run (withThoughtEchoGuard pending) chunks
  rw [← stream_safely (guardedStep_some serde), stream_eq_run, Option.isSome_map]
  constructor
  · rintro ⟨k, hk⟩
    have hsome := hk (max n k) (by omega)
    rwa [hn (max n k) (by omega)] at hsome
  · intro h
    exact ⟨n, fun steps hle => by rw [hn steps hle]; exact h⟩

/-- The arguments of a call, a string of one character of two bytes, and its end. -/
def accentArgs : Text := ['a', ':'] ++ stringQuote ++ ['é'] ++ stringQuote ++ ['}'] ++ toolCallClose

def accentCall : Text := toolCallOpen ++ (callPrefix ++ ['f', '{'] ++ accentArgs)

theorem accentArgs_fault : scanArgs 1 false accentArgs = none := by
  have hscan := scanArgs_some 1 false accentArgs
  cases hs : scanArgs 1 false accentArgs with
  | none => rfl
  | some r =>
    rw [hs] at hscan
    have hlook := hscan.mp rfl (['é'] ++ stringQuote ++ ['}'] ++ toolCallClose) (.on rfl (.on rfl (.on rfl .here)))
    exact absurd (hlook.2 (by decide) 'é' rfl) (by decide)

theorem quoted_accent_panics : ¬ ∀ serde pending chunks, ∃ n, ∀ steps, n ≤ steps →
    ((byteLoop serde).run steps (withThoughtEchoGuard pending) chunks).isSome = true := by
  intro h
  obtain ⟨n, hn⟩ := h ⟨⟨fun _ => none, fun _ => none⟩, fun _ => none, fun _ => none⟩ false [accentCall]
  generalize (⟨⟨fun _ => none, fun _ => none⟩, fun _ => none, fun _ => none⟩ : GemmaSerde) = serde at hn
  have hmarker : (byteLoop serde).step false ⟨.text, accentCall, 0, [], [], 0, false, false⟩ =
      some ([], ⟨.inCallHeader, callPrefix ++ ['f', '{'] ++ accentArgs, 0, [], [], 0, false, false⟩, true) := by
    have hhere : tagHere textOpenTags accentCall = some toolCallOpen := rfl
    have hfirst : earliest textOpenTags accentCall = some (0, toolCallOpen) := by
      rw [earliest_eq_scan, scan_here hhere]
      rfl
    rw [(byteLoop_is serde).step]
    change some (stepText _ false) = _
    rw [stepText]
    dsimp only
    rw [hfirst]
    rfl
  have hheader : (byteLoop serde).step false
      ⟨.inCallHeader, callPrefix ++ ['f', '{'] ++ accentArgs, 0, [], [], 0, false, false⟩ =
      some ([.toolCallOpen 0 ['f']], ⟨.inArgs, accentArgs, 0, ['f'], [], 1, false, false⟩, true) := by
    rw [(byteLoop_is serde).step]
    rfl
  have hargs : (byteLoop serde).step false ⟨.inArgs, accentArgs, 0, ['f'], [], 1, false, false⟩ = none := by
    rw [(byteLoop_is serde).step]
    change stepInArgs serde _ = none
    rw [stepInArgs, accentArgs_fault]
    rfl
  have hpush : (byteLoop serde).push (n + 3) (withThoughtEchoGuard false) accentCall = none := by
    change (byteLoop serde).drain false (n + 3) ⟨.text, accentCall, 0, [], [], 0, false, false⟩ = none
    rw [Loop.drain, hmarker]
    dsimp only
    rw [Loop.drain, hheader]
    dsimp only
    rw [Loop.drain, hargs]
    rfl
  have hsome := hn (n + 3) (Nat.le_add_right n 3)
  rw [Loop.run, hpush] at hsome
  cases hsome

end Flambeau.Server.ToolCallParser.Gemma4
