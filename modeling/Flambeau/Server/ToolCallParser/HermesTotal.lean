import Flambeau.Server.ToolCallParser.Hermes
import Flambeau.Server.ToolCallParser.HermesMachine
import Flambeau.Server.ToolCallParser.Slices
import Flambeau.Stream.Loop
import Flambeau.Stream.Safe

/-! The parser by byte offsets, with every slice it takes. -/

namespace Flambeau.Server.ToolCallParser.Hermes.Bytes
open Flambeau.Stream Flambeau.Runtime.JsonSchema

/-- The depth, string and escape flags after a byte of the scan; `none` where it closes
the object. -/
def objectStep (depth : Nat) (inStr escaped : Bool) (c : UInt8) : Option (Nat × Bool × Bool) :=
  if inStr then
    if escaped then some (depth, true, false)
    else if c = '\\'.toUInt8 then some (depth, true, true)
    else if c = '"'.toUInt8 then some (depth, false, false)
    else some (depth, true, false)
  else if c = '"'.toUInt8 then some (depth, true, escaped)
  else if c = '{'.toUInt8 then some (depth + 1, false, escaped)
  else if c = '}'.toUInt8 then
    if depth - 1 = 0 then none else some (depth - 1, false, escaped)
  else some (depth, false, escaped)

/-- The loop of `json_object_span`, from the opening brace on. -/
def objectEnd (depth : Nat) (inStr escaped : Bool) : List UInt8 → Option Nat
  | [] => none
  | c :: s =>
    match objectStep depth inStr escaped c with
    | none => some 0
    | some (depth, inStr, escaped) => (objectEnd depth inStr escaped s).map (· + 1)

def jsonObjectSpan (s : Text) : Option (Nat × Nat) :=
  (findByte ['{'] s).bind fun start =>
    (objectEnd 0 false false ((bytes s).drop start)).map fun i => (start, start + i)

def stepText (p : HermesJsonParser) (isFinish : Bool) : Option Step :=
  match earliestByte textOpenTags p.buf with
  | some (pos, tag) =>
    (sliceTo p.buf pos).bind fun text =>
      (sliceFrom p.buf (pos + byteLen tag)).map fun rest =>
        (emitText text, { p with buf := rest, state := if tag = thinkOpen then .inThink else .inTool }, true)
  | none => emitBuffered emitText textOpenTags p isFinish

def stepInThink (p : HermesJsonParser) (isFinish : Bool) : Option Step :=
  match findByte thinkClose p.buf with
  | some pos =>
    (sliceTo p.buf pos).bind fun thought =>
      (sliceFrom p.buf (pos + byteLen thinkClose)).map fun rest =>
        (emitThink thought, { p with buf := rest, state := .text }, true)
  | none => emitBuffered emitThink [thinkClose] p isFinish

def stepInTool (serde : SerdeJson) (p : HermesJsonParser) (isFinish : Bool) : Option Step :=
  match jsonObjectSpan p.buf with
  | some (start, stop) =>
    (slice p.buf start (stop + 1)).bind fun json =>
      (sliceFrom p.buf (stop + 1)).map fun rest =>
        let (name, args) := callOf serde json
        ([.toolCallOpen p.nextIndex name, .toolCallArgumentsDelta p.nextIndex args, .toolCallClose p.nextIndex],
          ⟨rest, .awaitingToolClose, p.nextIndex + 1⟩, true)
  | none =>
    if isFinish && !(trim p.buf).isEmpty then
      some (emitText (toolOpen ++ p.buf), { p with buf := [], state := .text }, true)
    else some ([], p, false)

def stepAwaitingClose (p : HermesJsonParser) (isFinish : Bool) : Option Step :=
  let trimmed := trimStart p.buf
  let leadWs := byteLen p.buf - byteLen trimmed
  match findByte toolClose trimmed with
  | some rel =>
    (sliceFrom p.buf (leadWs + rel + byteLen toolClose)).map fun rest =>
      ([], { p with buf := rest, state := .text }, true)
  | none =>
    if !isFinish && (trimmed.isEmpty || trimmed.isPrefixOf toolClose) then some ([], p, false)
    else if trimmed.isEmpty then some ([], { p with buf := [], state := .text }, false)
    else some ([], { p with state := .text }, true)

def step (serde : SerdeJson) (isFinish : Bool) (p : HermesJsonParser) : Option Step :=
  match p.state with
  | .text => stepText p isFinish
  | .inThink => stepInThink p isFinish
  | .inTool => stepInTool serde p isFinish
  | .awaitingToolClose => stepAwaitingClose p isFinish

end Flambeau.Server.ToolCallParser.Hermes.Bytes

namespace Flambeau.Server.ToolCallParser.Hermes
open Flambeau.Stream Flambeau.Stream.Machine Flambeau.Runtime.JsonSchema

/-! The offsets of the tags and of the object are char boundaries. -/

/-- A byte of a longer character does nothing to the scan but end an escape. -/
theorem objectStep_wide {b : UInt8} (hb : 128 ≤ b.toNat) (depth : Nat) (inStr escaped : Bool) :
    Bytes.objectStep depth inStr escaped b = some (depth, inStr, escaped && !inStr) := by
  have hne : ∀ d : Char, d.toNat < 128 → b ≠ d.toUInt8 := by
    rintro d hd rfl
    rw [toUInt8_ascii hd] at hb
    omega
  unfold Bytes.objectStep
  rw [if_neg (hne '\\' (by decide)), if_neg (hne '"' (by decide)), if_neg (hne '{' (by decide)),
    if_neg (hne '}' (by decide)), if_neg (hne '"' (by decide))]
  cases inStr <;> cases escaped <;> rfl

theorem objectEnd_wide {bs : List UInt8} (hbs : ∀ b ∈ bs, 128 ≤ b.toNat) (hne : bs ≠ []) (depth : Nat)
    (inStr escaped : Bool) (rest : List UInt8) :
    Bytes.objectEnd depth inStr escaped (bs ++ rest) =
      (Bytes.objectEnd depth inStr (escaped && !inStr) rest).map (· + bs.length) := by
  induction bs generalizing escaped with
  | nil => exact absurd rfl hne
  | cons b bs ih =>
    rw [List.cons_append, Bytes.objectEnd, objectStep_wide (hbs b List.mem_cons_self)]
    dsimp only
    cases bs with
    | nil => rfl
    | cons b' bs =>
      rw [ih (fun x hx => hbs x (List.mem_cons_of_mem b hx)) nofun, Bool.and_assoc, Bool.and_self, Option.map_map]
      rfl

theorem objectStep_wideChar {c : Char} (hc : ¬ c.toNat < 128) (depth : Nat) (inStr escaped : Bool) :
    objectStep depth inStr escaped c = some (depth, inStr, escaped && !inStr) := by
  have hne : ∀ d : Char, d.toNat < 128 → c ≠ d := by
    rintro d hd rfl
    exact hc hd
  unfold objectStep
  rw [if_neg (hne '\\' (by decide)), if_neg (hne '"' (by decide)), if_neg (hne '{' (by decide)),
    if_neg (hne '}' (by decide)), if_neg (hne '"' (by decide))]
  cases inStr <;> cases escaped <;> rfl

theorem objectStep_ascii {c : Char} (hc : c.toNat < 128) (depth : Nat) (inStr escaped : Bool) :
    Bytes.objectStep depth inStr escaped c.toUInt8 = objectStep depth inStr escaped c := by
  have heq : ∀ d : Char, d.toNat < 128 → (c.toUInt8 = d.toUInt8 ↔ c = d) := by
    intro d hd
    exact ascii_byte hd (by rw [utf8EncodeChar_ascii hc]; exact List.mem_singleton_self _)
  unfold Bytes.objectStep objectStep
  simp only [heq '\\' (by decide), heq '"' (by decide), heq '{' (by decide), heq '}' (by decide)]

theorem objectEnd_bytes (depth : Nat) (inStr escaped : Bool) (s : Text) :
    Bytes.objectEnd depth inStr escaped (bytes s) = (objectEnd depth inStr escaped s).map (byteAt s) := by
  induction s generalizing depth inStr escaped with
  | nil => rfl
  | cons c s ih =>
    have hbehind : ∀ k, byteAt (c :: s) (k + 1) = byteAt s k + c.utf8Size := by
      intro k
      rw [byteAt, List.take_succ_cons, byteLen_cons, Nat.add_comm]
      rfl
    have hbytes : bytes (c :: s) = String.utf8EncodeChar c ++ bytes s := List.flatMap_cons
    rw [hbytes, objectEnd]
    by_cases hc : c.toNat < 128
    · rw [utf8EncodeChar_ascii hc, List.singleton_append, Bytes.objectEnd, objectStep_ascii hc]
      cases hstep : objectStep depth inStr escaped c with
      | none => rfl
      | some r =>
        dsimp only
        rw [ih, Option.map_map, Option.map_map]
        congr 1
        funext k
        rw [Function.comp_apply, Function.comp_apply, hbehind, utf8Size_ascii hc]
    · rw [objectEnd_wide (fun b hb => utf8EncodeChar_wide hc hb) String.utf8EncodeChar_ne_nil, ih,
        objectStep_wideChar hc, Option.map_map, Option.map_map, String.length_utf8EncodeChar]
      congr 1
      funext k
      rw [Function.comp_apply, Function.comp_apply, hbehind]

/-- The object ends with its brace. -/
theorem objectEnd_brace (h : objectEnd depth inStr escaped s = some k) : s.drop k = '}' :: s.drop (k + 1) := by
  induction s generalizing depth inStr escaped k with
  | nil => cases h
  | cons c s ih =>
    rw [objectEnd] at h
    split at h
    · rename_i hstep
      cases h
      have hc : c = '}' := by
        apply Decidable.byContradiction
        intro hne
        unfold objectStep at hstep
        rw [if_neg hne] at hstep
        split at hstep
        · split at hstep
          · cases hstep
          split at hstep
          · cases hstep
          split at hstep <;> cases hstep
        split at hstep
        · cases hstep
        split at hstep <;> cases hstep
      rw [hc]
      rfl
    · obtain ⟨j, hj, rfl⟩ := Option.map_eq_some_iff.mp h
      exact ih hj

theorem jsonObjectSpan_bytes (s : Text) :
    Bytes.jsonObjectSpan s = (jsonObjectSpan s).map fun r => (byteAt s r.1, byteAt s r.2) := by
  unfold Bytes.jsonObjectSpan jsonObjectSpan
  cases hf : find ['{'] s with
  | none =>
    rw [findByte_none hf]
    rfl
  | some start =>
    rw [findByte_some hf, Option.bind_some, Option.bind_some, bytes_drop, objectEnd_bytes, Option.map_map,
      Option.map_map]
    congr 1
    funext k
    rw [Function.comp_apply, Function.comp_apply, byteAt_add]

theorem jsonObjectSpan_brace (h : jsonObjectSpan s = some (start, stop)) :
    start ≤ stop ∧ byteAt s (stop + 1) = byteAt s stop + 1 := by
  obtain ⟨k, hk, h⟩ := Option.bind_eq_some_iff.mp h
  obtain ⟨e, he, heq⟩ := Option.map_eq_some_iff.mp h
  cases heq
  have hbrace := objectEnd_brace he
  rw [List.drop_drop, List.drop_drop] at hbrace
  refine ⟨Nat.le_add_right _ _, ?_⟩
  exact @byteAt_behind _ ['}'] _ ⟨_, hbrace.symm⟩

theorem stepText_bytes (p : HermesJsonParser) (fin : Bool) : Bytes.stepText p fin = stepText p fin := by
  unfold Bytes.stepText stepText
  rw [earliestByte_eq]
  cases he : earliest textOpenTags p.buf with
  | none => rfl
  | some r =>
    dsimp only [Option.map_some]
    rw [sliceTo_at, Option.bind_some, ← earliest_behind he, sliceFrom_at]
    rfl

theorem stepInThink_bytes (p : HermesJsonParser) (fin : Bool) : Bytes.stepInThink p fin = stepInThink p fin := by
  unfold Bytes.stepInThink stepInThink
  cases hf : find thinkClose p.buf with
  | none => rw [findByte_none hf]
  | some pos =>
    rw [findByte_some hf]
    dsimp only
    rw [sliceTo_at, Option.bind_some, ← find_behind hf, sliceFrom_at]
    rfl

theorem stepInTool_bytes (serde : SerdeJson) (p : HermesJsonParser) (fin : Bool) :
    Bytes.stepInTool serde p fin = stepInTool serde p fin := by
  unfold Bytes.stepInTool stepInTool
  rw [jsonObjectSpan_bytes]
  cases hspan : jsonObjectSpan p.buf with
  | none => rfl
  | some r =>
    obtain ⟨start, stop⟩ := r
    obtain ⟨hle, hbrace⟩ := jsonObjectSpan_brace hspan
    dsimp only [Option.map_some]
    rw [← hbrace, slice_at _ (Nat.le_succ_of_le hle), Option.bind_some, sliceFrom_at]
    rfl

/-- The white space in front, by bytes. -/
theorem leadWs_bytes (s : Text) :
    byteLen s - byteLen (trimStart s) = byteAt s (s.length - (trimStart s).length) ∧
      s.drop (s.length - (trimStart s).length) = trimStart s := by
  obtain ⟨w, hw⟩ : trimStart s <:+ s := List.dropWhile_suffix isWhitespace
  have hlen : s.length - (trimStart s).length = w.length := by
    rw [← hw, List.length_append, hw, Nat.add_sub_cancel]
  have hbytes : byteLen s = byteLen w + byteLen (trimStart s) := by rw [← byteLen_append, hw]
  rw [hlen, hbytes, Nat.add_sub_cancel]
  have htake : (w ++ trimStart s).take w.length = w := List.take_left
  have hdrop : (w ++ trimStart s).drop w.length = trimStart s := List.drop_left
  rw [hw] at htake hdrop
  exact ⟨by rw [byteAt, htake], hdrop⟩

theorem stepAwaitingClose_bytes (p : HermesJsonParser) (fin : Bool) :
    Bytes.stepAwaitingClose p fin = some (stepAwaitingClose p fin) := by
  obtain ⟨hws, hdrop⟩ := leadWs_bytes p.buf
  unfold Bytes.stepAwaitingClose stepAwaitingClose
  dsimp only
  cases hf : find toolClose (trimStart p.buf) with
  | none =>
    rw [findByte_none hf]
    dsimp only
    split
    · rfl
    split <;> rfl
  | some rel =>
    rw [findByte_some hf]
    dsimp only
    have hall := find_behind hf
    rw [hws, Nat.add_assoc, ← hall]
    generalize p.buf.length - (trimStart p.buf).length = n at hdrop ⊢
    rw [← hdrop, ← byteAt_add, sliceFrom_at, Nat.add_assoc]
    rfl

/-- By bytes or by characters, the steps are the same. -/
theorem step_bytes (serde : SerdeJson) (fin : Bool) (p : HermesJsonParser) :
    Bytes.step serde fin p = step serde fin p := by
  unfold Bytes.step step
  cases p.state with
  | text => exact stepText_bytes p fin
  | inThink => exact stepInThink_bytes p fin
  | inTool => exact stepInTool_bytes serde p fin
  | awaitingToolClose => exact stepAwaitingClose_bytes p fin

/-! What the held tail cuts. -/

/-- The bytes that may be a front of a tag are characters of their own. -/
def TailWhole (tags : List Text) (buf : Text) : Prop :=
  ∀ cut, byteLen buf - ((tags.map byteLen).foldl max 0 - 1) ≤ cut → cut < byteLen buf →
    isCharBoundary buf cut = true

theorem boundary_ascii {a t : Text} (ht : IsAscii t) (hle : byteLen a ≤ cut) (hlt : cut ≤ byteLen (a ++ t)) :
    isCharBoundary (a ++ t) cut = true := by
  obtain ⟨j, rfl⟩ := Nat.exists_eq_add_of_le hle
  rw [byteLen_append, byteLen_ascii ht] at hlt
  rw [isCharBoundary, splitByte_front, splitByte_ascii ht (by omega)]
  rfl

theorem firstCut_some {tags : List Text} (htags : ∀ t ∈ tags, IsAscii t) (buf : Text) (hend : lo + k = byteLen buf) :
    (ambiguousTailStart.firstCut buf tags (List.range' lo k)).isSome = true ↔
      ∀ cut, lo ≤ cut → cut < byteLen buf → isCharBoundary buf cut = true := by
  induction k generalizing lo with
  | zero =>
    refine iff_of_true rfl fun cut hle hlt => ?_
    omega
  | succ k ih =>
    rw [List.range'_succ, ambiguousTailStart.firstCut]
    cases hs : splitByte lo buf with
    | none =>
      refine iff_of_false (fun h => by cases h) fun hall => ?_
      have hlo := hall lo (Nat.le_refl _) (by omega)
      rw [isCharBoundary, hs] at hlo
      cases hlo
    | some r =>
      obtain ⟨a, t⟩ := r
      obtain ⟨hsplit, ha⟩ := splitByte_append hs
      rw [Option.bind_some]
      by_cases hopen : (tags.any fun tag => t.isPrefixOf tag) = true
      · obtain ⟨tag, htag, hp⟩ := List.any_eq_true.mp hopen
        have hascii : IsAscii t := (htags tag htag).sub fun c hc => (List.isPrefixOf_iff_prefix.mp hp).subset hc
        rw [if_pos hopen]
        refine iff_of_true rfl fun cut hle hlt => ?_
        rw [← hsplit] at hlt ⊢
        exact boundary_ascii hascii (by omega) (Nat.le_of_lt hlt)
      · rw [if_neg hopen, ih (by omega)]
        constructor
        · intro h cut hle hlt
          rcases Nat.lt_or_eq_of_le hle with hlo | rfl
          · exact h cut hlo hlt
          · rw [isCharBoundary, hs]
            rfl
        · intro h cut hle hlt
          exact h cut (by omega) hlt

theorem emitBuffered_some {tags : List Text} (htags : ∀ t ∈ tags, IsAscii t) (emit : Text → List ParserEvent)
    (p : HermesJsonParser) : (emitBuffered emit tags p false).isSome = true ↔ TailWhole tags p.buf := by
  have hcuts := @firstCut_some (byteLen p.buf - ((tags.map byteLen).foldl max 0 - 1)) (byteLen p.buf -
    (byteLen p.buf - ((tags.map byteLen).foldl max 0 - 1))) _ htags p.buf (by omega)
  unfold TailWhole
  rw [← hcuts]
  unfold emitBuffered ambiguousTailStart
  simp only [Bool.false_eq_true, if_false]
  cases hn : ambiguousTailStart.firstCut p.buf tags (List.range' (byteLen p.buf - ((tags.map byteLen).foldl max 0 - 1))
      (byteLen p.buf - (byteLen p.buf - ((tags.map byteLen).foldl max 0 - 1)))) with
  | none => exact Iff.rfl
  | some n =>
    refine iff_of_true ?_ rfl
    rw [Option.bind_some]
    split
    · rw [Option.isSome_map, splitByte_floor]
    · rfl

/-- A push that gives out what it holds has only whole characters among the bytes it tries. -/
def CutsWhole (fin : Bool) (p : HermesJsonParser) : Prop :=
  fin = false →
    (p.state = .text → earliest textOpenTags p.buf = none → TailWhole textOpenTags p.buf) ∧
    (p.state = .inThink → find thinkClose p.buf = none → TailWhole [thinkClose] p.buf)

theorem emitBuffered_whole {p : HermesJsonParser} {tags : List Text} (htags : ∀ t ∈ tags, IsAscii t) {emit : Text → List ParserEvent}
    (hempty : emit [] = []) (fin : Bool) :
    (emitBuffered emit tags p fin).isSome = true ↔ (fin = false → TailWhole tags p.buf) := by
  cases fin with
  | true =>
    rw [emitBuffered_finish hempty]
    exact iff_of_true rfl nofun
  | false =>
    rw [emitBuffered_some htags]
    exact ⟨fun h _ => h, fun h => h rfl⟩

theorem step_some (serde : SerdeJson) (fin : Bool) (p : HermesJsonParser) :
    (step serde fin p).isSome = true ↔ CutsWhole fin p := by
  unfold step CutsWhole
  cases hs : p.state with
  | text =>
    dsimp only
    unfold stepText
    cases he : earliest textOpenTags p.buf with
    | some r => exact iff_of_true rfl fun _ => ⟨nofun, nofun⟩
    | none =>
      dsimp only
      rw [emitBuffered_whole (by decide) rfl]
      exact ⟨fun h hfin => ⟨fun _ _ => h hfin, nofun⟩, fun h hfin => (h hfin).1 rfl rfl⟩
  | inThink =>
    dsimp only
    unfold stepInThink
    cases hf : find thinkClose p.buf with
    | some pos => exact iff_of_true rfl fun _ => ⟨nofun, nofun⟩
    | none =>
      dsimp only
      rw [emitBuffered_whole (by decide) rfl]
      exact ⟨fun h hfin => ⟨nofun, fun _ _ => h hfin⟩, fun h hfin => (h hfin).2 rfl rfl⟩
  | inTool =>
    dsimp only
    unfold stepInTool
    refine iff_of_true ?_ fun _ => ⟨nofun, nofun⟩
    split
    · rfl
    split <;> rfl
  | awaitingToolClose => exact iff_of_true rfl fun _ => ⟨nofun, nofun⟩

/-! Whole runs. -/

/-- The loop of the parser as the source has it, by bytes. -/
def byteLoop (serde : SerdeJson) : Loop Char ParserEvent HermesJsonParser where
  feed p chunk := { p with buf := p.buf ++ chunk }
  step := Bytes.step serde
  flush := flush

theorem byteLoop_is (serde : SerdeJson) : (byteLoop serde).Is (machine serde) where
  feed := rfl
  step := by
    funext fin p
    exact step_bytes serde fin p
  flush := rfl

/-- A parser as either constructor builds it. -/
def start (inThink : Bool) : HermesJsonParser := if inThink then .newInThink else .new

/-- A run has no slice that is out of place, just when no push gives out text whose last bytes, as
many as a tag has but one, are part of a longer character. -/
theorem hermes_total_iff (serde : SerdeJson) (inThink : Bool) (chunks : List Text) :
    (∃ n, ∀ steps, n ≤ steps → ((byteLoop serde).run steps (start inThink) chunks).isSome = true) ↔
      (machine serde).Safely CutsWhole (start inThink) chunks := by
  obtain ⟨n, hn⟩ := (byteLoop_is serde).run (start inThink) chunks
  rw [← stream_safely (step_some serde), stream_eq_run, Option.isSome_map]
  constructor
  · rintro ⟨k, hk⟩
    have hsome := hk (max n k) (by omega)
    rwa [hn (max n k) (by omega)] at hsome
  · intro h
    exact ⟨n, fun steps hle => by rw [hn steps hle]; exact h⟩

/-- A chunk of one character of two bytes. -/
theorem accent_panics : ¬ ∀ serde inThink chunks, ∃ n, ∀ steps, n ≤ steps →
    ((byteLoop serde).run steps (start inThink) chunks).isSome = true := by
  intro h
  obtain ⟨n, hn⟩ := h ⟨fun _ => none, fun _ => none⟩ false [['é']]
  have hstep : (byteLoop ⟨fun _ => none, fun _ => none⟩).step false ⟨['é'], .text, 0⟩ = none := rfl
  have hpush : (byteLoop ⟨fun _ => none, fun _ => none⟩).push (n + 1) (start false) ['é'] = none := by
    change (byteLoop ⟨fun _ => none, fun _ => none⟩).drain false (n + 1) ⟨['é'], .text, 0⟩ = none
    rw [Loop.drain, hstep]
  have hsome := hn (n + 1) (Nat.le_succ n)
  rw [Loop.run, hpush] at hsome
  cases hsome

end Flambeau.Server.ToolCallParser.Hermes
