import Flambeau.Runtime.JsonSchema
import Flambeau.Runtime.JsonGrammar
import Flambeau.Runtime.Sampling
import Flambeau.Server.ToolCallParser.Text

namespace Flambeau.Server
open Flambeau.Runtime
open Flambeau.Json (Bytes)
open ToolCallParser (Text)

/-- `JsonConstraint`. -/
inductive JsonConstraint where
  | object (s : JsonState)
  | schema (s : JsonSchema.SchemaState)

namespace JsonConstraint

def feedSlice (js : JsonConstraint) (bytes : Bytes) : Bool × JsonConstraint :=
  match js with
  | .object s => ((s.feedSlice bytes).1, .object (s.feedSlice bytes).2)
  | .schema s => ((s.feedSlice bytes).1, .schema (s.feedSlice bytes).2)

def isComplete : JsonConstraint → Bool
  | .object s => s.isComplete
  | .schema s => s.isComplete

def hasStarted : JsonConstraint → Bool
  | .object s => s.hasStarted
  | .schema s => s.hasStarted

def topMustBeObject : JsonConstraint → Bool
  | .object _ => true
  | .schema _ => false

theorem feedSlice_nil (js : JsonConstraint) : js.feedSlice [] = (true, js) := by
  cases js <;> rfl

theorem object_append (s : JsonState) (u w : Bytes) :
    s.feedSlice (u ++ w) = if (s.feedSlice u).1 then (s.feedSlice u).2.feedSlice w else s.feedSlice u := by
  induction u generalizing s with
  | nil => rfl
  | cons b u ih =>
    rw [List.cons_append, JsonState.feedSlice, JsonState.feedSlice]
    rcases s.feed b with ⟨fed, s'⟩
    cases fed with
    | true => exact ih s'
    | false => rfl

theorem schema_append (s : JsonSchema.SchemaState) (u w : Bytes) :
    s.feedSlice (u ++ w) = if (s.feedSlice u).1 then (s.feedSlice u).2.feedSlice w else s.feedSlice u := by
  induction u generalizing s with
  | nil => rfl
  | cons b u ih =>
    rw [List.cons_append, JsonSchema.SchemaState.feedSlice, JsonSchema.SchemaState.feedSlice]
    rcases s.feed b with ⟨fed, s'⟩
    cases fed with
    | true => exact ih s'
    | false => rfl

/-- An accepted slice and then another one. -/
theorem feedSlice_append {js : JsonConstraint} {u : Bytes} (w : Bytes)
    (h : (js.feedSlice u).1 = true) : js.feedSlice (u ++ w) = (js.feedSlice u).2.feedSlice w := by
  cases js with
  | object s =>
    simp only [feedSlice] at h ⊢
    rw [object_append, if_pos h]
  | schema s =>
    simp only [feedSlice] at h ⊢
    rw [schema_append, if_pos h]

end JsonConstraint

/-- `GgufTokenizer`, as the loops use it. -/
structure GgufTokenizer where
  stopIds : List Nat
  alwaysStopIds : List Nat
  decode : List Nat → Option Text
  encode : Text → Option (List Nat)

/-- `str::as_bytes`. -/
def asBytes (text : Text) : Bytes := text.flatMap String.utf8EncodeChar

/-- What `apply_json_mask_to_logits` lets a candidate keep its logit for. -/
def jsonAllows (js : JsonConstraint) (tokenizer : GgufTokenizer) (id : Nat) : Bool :=
  match tokenizer.decode [id] with
  | none => false
  | some text =>
    let bytes := asBytes text
    if bytes.isEmpty then js.isComplete
    else
      let (fed, probe) := js.feedSlice bytes
      if !fed then false
      else if !js.hasStarted && !probe.hasStarted then false
      else !(js.topMustBeObject && !js.hasStarted && probe.hasStarted && bytes.all (· != 0x7B))

/-- The best `maxCandidates` of the logits, with their token ids. -/
def jsonCandidates (U : UnstableDesc) (logits : List F32) (maxCandidates : Nat) :
    List (Nat × F32) :=
  let k := min maxCandidates logits.length
  let pairs := logits.zipIdx.map fun p => (p.2, p.1)
  if k < pairs.length then (U.select k pairs).take k else pairs

/-- A vocabulary no larger than the candidates is looked at whole. -/
theorem candidates_all (U : UnstableDesc) {logits : List F32} {maxCandidates : Nat}
    (h : logits.length ≤ maxCandidates) {id : Nat} {v : F32} (hv : logits[id]? = some v) :
    ∃ p ∈ jsonCandidates U logits maxCandidates, p.1 = id := by
  have hmem : (id, v) ∈ logits.zipIdx.map fun p => (p.2, p.1) :=
    List.mem_map.mpr ⟨(v, id), List.mem_zipIdx_iff_getElem?.mpr hv, rfl⟩
  refine ⟨(id, v), ?_, rfl⟩
  unfold jsonCandidates
  simp only [List.length_map, List.length_zipIdx, Nat.min_eq_right h, Nat.lt_irrefl, if_false]
  exact hmem

/-- `apply_json_mask_to_logits`. -/
def applyJsonMaskToLogits (U : UnstableDesc) (js : JsonConstraint) (tokenizer : GgufTokenizer)
    (logits : List F32) (maxCandidates : Nat) : List F32 :=
  (jsonCandidates U logits maxCandidates).foldl
    (fun ls p => if jsonAllows js tokenizer p.1 then ls else ls.set p.1 .negInf) logits

/-- The stop mask of the first token. -/
def maskStopIds (stopIds : List Nat) (logits : List F32) : List F32 :=
  stopIds.foldl (fun ls sid => ls.set sid .negInf) logits

/-- The stop mask of a decode step: minus infinity, or the bias. -/
def maskOrBiasStopIds (tokenizer : GgufTokenizer) (forceMask : Bool) (stopBias : F32)
    (logits : List F32) : List F32 :=
  tokenizer.stopIds.foldl (fun ls sid => ls.modify sid fun l =>
    if forceMask || tokenizer.alwaysStopIds.contains sid then .negInf else l.sub stopBias) logits

theorem maskStopIds_get (ids : List Nat) (logits : List F32) (i : Nat) :
    (maskStopIds ids logits)[i]? =
      if i ∈ ids then logits[i]?.map fun _ => .negInf else logits[i]? := by
  unfold maskStopIds
  induction ids generalizing logits with
  | nil => simp
  | cons id ids ih =>
    rw [List.foldl_cons, ih, List.getElem?_set]
    by_cases hid : id = i
    · subst hid
      cases hi : logits[id]? with
      | none =>
        have hlen := List.getElem?_eq_none_iff.mp hi
        simp [Nat.not_lt.mpr hlen]
      | some v =>
        have hlen := (List.getElem?_eq_some_iff.mp hi).1
        simp [hlen]
    · have hne : i ≠ id := fun h => hid h.symm
      simp [hid, hne]

/-- The mask changes nothing where every id is out of range or at minus infinity. -/
theorem maskStopIds_idle {ids : List Nat} {logits : List F32} :
    maskStopIds ids logits = logits ↔ ∀ i ∈ ids, ∀ v, logits[i]? = some v → v = .negInf := by
  constructor
  · intro h i hi v hv
    have hget := maskStopIds_get ids logits i
    rw [h, if_pos hi, hv] at hget
    exact Option.some.inj hget
  · intro h
    apply List.ext_getElem?
    intro i
    rw [maskStopIds_get]
    split
    · rename_i hi
      cases hv : logits[i]? with
      | none => rfl
      | some v => rw [h i hi v hv, Option.map_some]
    · rfl

/-- The ids the JSON mask sets to minus infinity. -/
def jsonMasked (U : UnstableDesc) (js : JsonConstraint) (tokenizer : GgufTokenizer)
    (logits : List F32) (maxCandidates : Nat) : List Nat :=
  ((jsonCandidates U logits maxCandidates).filter fun p => !jsonAllows js tokenizer p.1).map (·.1)

theorem applyJsonMask_eq (U : UnstableDesc) (js : JsonConstraint) (tokenizer : GgufTokenizer)
    (logits : List F32) (maxCandidates : Nat) :
    applyJsonMaskToLogits U js tokenizer logits maxCandidates =
      maskStopIds (jsonMasked U js tokenizer logits maxCandidates) logits := by
  unfold applyJsonMaskToLogits jsonMasked maskStopIds
  have hfold : ∀ (ps : List (Nat × F32)) (ls : List F32),
      ps.foldl (fun ls p => if jsonAllows js tokenizer p.1 then ls else ls.set p.1 .negInf) ls =
        ((ps.filter fun p => !jsonAllows js tokenizer p.1).map (·.1)).foldl
          (fun ls sid => ls.set sid .negInf) ls := by
    intro ps
    induction ps with
    | nil => exact fun _ => rfl
    | cons p ps ih =>
      intro ls
      rw [List.foldl_cons, List.filter_cons]
      cases jsonAllows js tokenizer p.1 with
      | true => exact ih ls
      | false => exact ih _
  exact hfold _ _

/-- The JSON mask changes nothing where every candidate is allowed or at minus
infinity. -/
theorem applyJsonMask_idle {U : UnstableDesc} {js : JsonConstraint} {tokenizer : GgufTokenizer}
    {logits : List F32} {maxCandidates : Nat} :
    applyJsonMaskToLogits U js tokenizer logits maxCandidates = logits ↔
      ∀ p ∈ jsonCandidates U logits maxCandidates, jsonAllows js tokenizer p.1 = true ∨
        ∀ v, logits[p.1]? = some v → v = .negInf := by
  rw [applyJsonMask_eq, maskStopIds_idle]
  constructor
  · intro h p hp
    cases hallow : jsonAllows js tokenizer p.1 with
    | true => exact .inl rfl
    | false => exact .inr (h p.1 (List.mem_map.mpr ⟨p, List.mem_filter.mpr ⟨hp, by simp [hallow]⟩, rfl⟩))
  · intro h i hi v hv
    obtain ⟨p, hp, rfl⟩ := List.mem_map.mp hi
    obtain ⟨hcand, hnot⟩ := List.mem_filter.mp hp
    refine (h p hcand).resolve_left ?_ v hv
    intro hallow
    simp [hallow] at hnot

end Flambeau.Server
