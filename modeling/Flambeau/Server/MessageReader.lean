import Flambeau.Server.Messages
import Flambeau.Server.ToolCallsAgree

namespace Flambeau.Server.Messages
open Flambeau.Stream Flambeau.Systems Flambeau.Systems.Outbox ToolCallParser

/-! A client. -/

/-- A block as a client has it. -/
inductive Content where
  | thinking (thinking signature : Text)
  | text (text : Text)
  | toolUse (id name input : Text)

structure Block where
  content : Content
  stopped : Bool

def ContentBlock.opened : ContentBlock → Content
  | .thinking => .thinking [] []
  | .text => .text []
  | .toolUse id name => .toolUse id name []

/-- A delta of another kind than the block's is an error. -/
def Content.add : Content → BlockDelta → Option Content
  | .thinking t signature, .thinkingDelta s => some (.thinking (t ++ s) signature)
  | .thinking t signature, .signatureDelta s => some (.thinking t (signature ++ s))
  | .text t, .textDelta s => some (.text (t ++ s))
  | .toolUse id name input, .inputJsonDelta s => some (.toolUse id name (input ++ s))
  | _, _ => none

def Block.add (d : BlockDelta) (b : Block) : Option Block :=
  if b.stopped then none else (b.content.add d).map fun content => ⟨content, false⟩

def Block.stop (b : Block) : Option Block := if b.stopped then none else some ⟨b.content, true⟩

inductive Stage where
  | waiting
  | content
  | concluded
  | ended
deriving DecidableEq

structure Reader where
  stage : Stage
  blocks : List Block
  stopReason : Option StopReason
  error : Option Text

def Reader.start : Reader := ⟨.waiting, [], none, none⟩

/-- A block starts behind the ones before it, and what changes is open. -/
def Reader.change (r : Reader) (i : Nat) (f : Block → Option Block) : Option Reader :=
  if r.stage = .content then
    r.blocks[i]?.bind fun b => (f b).map fun b' => { r with blocks := r.blocks.set i b' }
  else none

/-- A frame out of place has no reading. -/
def Reader.read (r : Reader) : Frame → Option Reader
  | .messageStart _ _ _ => if r.stage = .waiting then some { r with stage := .content } else none
  | .contentBlockStart i block =>
    if r.stage = .content ∧ i = r.blocks.length then
      some { r with blocks := r.blocks ++ [⟨block.opened, false⟩] }
    else none
  | .contentBlockDelta i d => r.change i (Block.add d)
  | .contentBlockStop i => r.change i Block.stop
  | .messageDelta reason _ =>
    if r.stage = .content ∧ r.blocks.all Block.stopped then
      some { r with stage := .concluded, stopReason := some reason }
    else none
  | .messageStop => if r.stage = .concluded then some { r with stage := .ended } else none
  | .error _ message => some { r with error := some message }

def Reader.readAll (r : Reader) (frames : List Frame) : Option Reader := frames.foldlM Reader.read r

theorem Reader.readAll_append (r : Reader) (fs gs : List Frame) :
    r.readAll (fs ++ gs) = (r.readAll fs).bind fun r' => r'.readAll gs :=
  List.foldlM_append

theorem Reader.readAll_cons (r : Reader) (f : Frame) (fs : List Frame) :
    r.readAll (f :: fs) = (r.read f).bind fun r' => r'.readAll fs :=
  List.foldlM_cons

theorem Reader.readAll_nil (r : Reader) : r.readAll [] = some r := rfl

/-! Lists of different things. -/

section Layout
variable {κ γ : Type} [DecidableEq κ] {layout : List κ}

theorem set_map_update (hnodup : layout.Nodup) (hi : layout[i]? = some k) (ρ : κ → γ) (x : γ) :
    (layout.map ρ).set i x = layout.map (Function.update ρ k x) := by
  apply List.ext_getElem?
  intro j
  rw [List.getElem?_set, List.getElem?_map, List.getElem?_map, List.length_map]
  obtain ⟨hlt, hk⟩ := List.getElem?_eq_some_iff.mp hi
  by_cases hij : i = j
  · subst hij
    rw [if_pos rfl, if_pos hlt, hi, Option.map_some, Function.update_self]
  · rw [if_neg hij]
    cases hj : layout[j]? with
    | none => rfl
    | some k' =>
      have hne : k' ≠ k := fun heq => hij ((List.getElem?_inj hlt hnodup).mp (hi.trans (heq ▸ hj.symm)))
      rw [Option.map_some, Option.map_some, Function.update_of_ne hne]

theorem append_map_update (hk : k ∉ layout) (ρ : κ → γ) (x : γ) :
    layout.map ρ ++ [x] = (layout ++ [k]).map (Function.update ρ k x) := by
  rw [List.map_append, List.map_singleton, Function.update_self]
  congr 1
  refine List.map_congr_left fun k' hk' => ?_
  rw [Function.update_of_ne]
  rintro rfl
  exact hk hk'

theorem flatMap_one {α : Type} (hnodup : layout.Nodup) {f : κ → List α} (hf : ∀ k' ∈ layout, k' ≠ k → f k' = []) :
    layout.flatMap f = if k ∈ layout then f k else [] := by
  induction layout with
  | nil => rfl
  | cons k' layout ih =>
    obtain ⟨hnot, hnodup⟩ := List.nodup_cons.mp hnodup
    have hrest := ih hnodup fun k'' hk'' => hf k'' (List.mem_cons_of_mem _ hk'')
    rw [List.flatMap_cons, hrest]
    by_cases heq : k' = k
    · subst heq
      rw [if_neg hnot, if_pos List.mem_cons_self, List.append_nil]
    · rw [hf k' List.mem_cons_self heq, List.nil_append]
      simp only [List.mem_cons, Ne.symm heq, false_or]

omit [DecidableEq κ] in
theorem filterMap_of_keys {ι α β : Type} {layout : List κ} {entries : List α} {number : κ → Option ι} {index : α → ι}
    {g : κ → Option β} {f : α → β} (hkeys : layout.filterMap number = entries.map index)
    (hsome : ∀ a ∈ entries, ∀ k ∈ layout, number k = some (index a) → g k = some (f a))
    (hnone : ∀ k ∈ layout, number k = none → g k = none) : layout.filterMap g = entries.map f := by
  induction layout generalizing entries with
  | nil =>
    obtain rfl := List.map_eq_nil_iff.mp hkeys.symm
    rfl
  | cons k layout ih =>
    cases hk : number k with
    | none =>
      rw [List.filterMap_cons_none hk] at hkeys
      rw [List.filterMap_cons_none (hnone k List.mem_cons_self hk)]
      exact ih hkeys (fun a ha k' hk' => hsome a ha k' (List.mem_cons_of_mem _ hk'))
        fun k' hk' => hnone k' (List.mem_cons_of_mem _ hk')
    | some n =>
      rw [List.filterMap_cons_some hk] at hkeys
      cases entries with
      | nil => cases hkeys
      | cons a entries =>
        rw [List.map_cons] at hkeys ⊢
        injection hkeys with hn hkeys
        rw [List.filterMap_cons_some (hsome a List.mem_cons_self k List.mem_cons_self (hk.trans (congrArg some hn)))]
        congr 1
        exact ih hkeys (fun a' ha' k' hk' => hsome a' (List.mem_cons_of_mem _ ha') k' (List.mem_cons_of_mem _ hk'))
          fun k' hk' => hnone k' (List.mem_cons_of_mem _ hk')

end Layout

/-! What the events tell. -/

/-- The reasoning, the answer and the calls so far, the calls that are open, and whether there
was one. -/
structure Told where
  reasoning : Text
  content : Text
  calls : List ClientCall
  opened : List Nat
  called : Bool

def thought : ParserEvent → Text
  | .thinkDelta s => s
  | _ => []

def said : ParserEvent → Text
  | .textDelta s => s
  | _ => []

def Told.hear (t : Told) (e : ParserEvent) : Told where
  reasoning := t.reasoning ++ thought e
  content := t.content ++ said e
  calls := clientEvent t.calls e
  opened :=
    match e with
    | .toolCallOpen n _ => n :: t.opened
    | .toolCallClose n => t.opened.filter (· != n)
    | _ => t.opened
  called :=
    match e with
    | .toolCallOpen _ _ => true
    | _ => t.called

/-- A call is opened once, and its arguments come while it is open. -/
def Placed (t : Told) : ParserEvent → Prop
  | .toolCallOpen n _ => n ∉ t.calls.map ClientCall.index
  | .toolCallArgumentsDelta n _ => n ∈ t.opened
  | _ => True

def Orderly (t : Told) : List ParserEvent → Prop
  | [] => True
  | e :: es => Placed t e ∧ Orderly (t.hear e) es

/-! The blocks of a client beside the server's variables. -/

/-- What a block is for. -/
inductive Kind where
  | thinking
  | text
  | tool (index : Nat)
deriving DecidableEq

def Kind.number : Kind → Option Nat
  | .tool n => some n
  | _ => none

/-- The client's blocks are for these things, in this order. -/
structure Lays (layout : List Kind) (ρ : Kind → Block) (r : Reader) : Prop where
  nodup : layout.Nodup
  reader : r = ⟨.content, layout.map ρ, none, none⟩

theorem Lays.start (h : Lays layout ρ r) (hk : k ∉ layout) (block : ContentBlock) :
    ∃ r', r.read (.contentBlockStart layout.length block) = some r' ∧
      Lays (layout ++ [k]) (Function.update ρ k ⟨block.opened, false⟩) r' := by
  obtain rfl := h.reader
  refine ⟨_, if_pos ⟨rfl, (List.length_map _).symm⟩, ?_, ?_⟩
  · rw [List.nodup_append]
    refine ⟨h.nodup, List.nodup_singleton k, ?_⟩
    rintro a ha b hb rfl
    exact hk (List.mem_singleton.mp hb ▸ ha)
  · rw [append_map_update hk]

theorem Lays.change (h : Lays layout ρ r) (hi : layout[i]? = some k) (hf : f (ρ k) = some x) :
    ∃ r', r.change i f = some r' ∧ Lays layout (Function.update ρ k x) r' := by
  obtain rfl := h.reader
  refine ⟨⟨.content, (layout.map ρ).set i x, none, none⟩, ?_, h.nodup, ?_⟩
  · unfold Reader.change
    rw [if_pos rfl, List.getElem?_map, hi, Option.map_some, Option.bind_some, hf]
    rfl
  · rw [set_map_update h.nodup hi]

structure Shows (layout : List Kind) (ρ : Kind → Block) (t : Told) (b : Blocks) (r : Reader) : Prop where
  lays : Lays layout ρ r
  next : b.nextBlockIndex = layout.length
  thinkingIdx : ∀ i, b.thinkingIdx = some i ↔ layout[i]? = some .thinking
  textIdx : ∀ i, b.textIdx = some i ↔ layout[i]? = some .text
  thinking : ρ .thinking = ⟨.thinking t.reasoning [], b.thinkingClosed⟩
  text : ρ .text = ⟨.text t.content, false⟩
  noThinking : b.thinkingIdx = none → t.reasoning = [] ∧ b.thinkingClosed = false
  noText : b.textIdx = none → t.content = []
  tools : layout.filterMap Kind.number = t.calls.map ClientCall.index
  call : ∀ c ∈ t.calls, ∃ id, ρ (.tool c.index) = ⟨.toolUse id c.name c.arguments, decide (c.index ∉ t.opened)⟩
  opened : ∀ n ∈ t.opened, n ∈ t.calls.map ClientCall.index
  toolOpen : ∀ n i, (n, i) ∈ b.toolOpen ↔ layout[i]? = some (.tool n) ∧ n ∈ t.opened
  toolNodup : b.toolOpen.Nodup
  hasToolCalls : b.hasToolCalls = t.called

theorem mem_tools {layout : List Kind} (hkeys : layout.filterMap Kind.number = keys) : Kind.tool n ∈ layout ↔ n ∈ keys := by
  rw [← hkeys, List.mem_filterMap]
  constructor
  · exact fun h => ⟨_, h, rfl⟩
  · rintro ⟨k, hk, hn⟩
    cases k with
    | tool m =>
      cases hn
      exact hk
    | _ => cases hn

theorem getElem?_append_kind {layout : List Kind} {k k' : Kind} (hne : k' ≠ k) (i : Nat) :
    (layout ++ [k])[i]? = some k' ↔ layout[i]? = some k' := by
  rcases Nat.lt_trichotomy i layout.length with hlt | rfl | hgt
  · rw [List.getElem?_append_left hlt]
  · rw [List.getElem?_concat_length, List.getElem?_eq_none (Nat.le_refl _)]
    simp [hne.symm]
  · rw [List.getElem?_eq_none (by rw [List.length_append]; simp; omega), List.getElem?_eq_none (by omega)]

theorem getElem?_append_new {layout : List Kind} {k : Kind} (hk : k ∉ layout) (i : Nat) :
    (layout ++ [k])[i]? = some k ↔ i = layout.length := by
  constructor
  · intro h
    by_contra hne
    rcases Nat.lt_or_gt_of_ne hne with hlt | hgt
    · rw [List.getElem?_append_left hlt] at h
      exact hk (List.mem_of_getElem? h)
    · rw [List.getElem?_eq_none (by rw [List.length_append]; simp; omega)] at h
      cases h
  · rintro rfl
    exact List.getElem?_concat_length

end Flambeau.Server.Messages
