import Flambeau.Server.ToolCallParser.Gemma4Args

namespace Flambeau.Server.ToolCallParser.Gemma4
open Flambeau.Stream Flambeau.Runtime.JsonSchema

/-! What the recursive descent gives, with what is left as a plain text. -/

def objectBody (serde : GemmaSerde) (obj : List (Name × Value)) (s : Text) : Option (Value × Text) :=
  (parseObjectBody serde obj s).map fun x => (x.1, x.2.val)

def value (serde : GemmaSerde) (s : Text) : Option (Value × Text) :=
  (parseValue serde s).map fun x => (x.1, x.2.val)

def array (serde : GemmaSerde) (values : List Value) (s : Text) : Option (List Value × Text) :=
  (parseArray serde values s).map fun x => (x.1, x.2.val)

/-- Behind a closer, where it stands. -/
def closed (c : Char) (s : Text) : Text := if s.head? = some c then s.drop 1 else s

/-- What follows a value of an object or an array: on behind a comma. -/
def afterValue (next : Text → Option β) (stop : Text → β) : Text → Option β
  | ',' :: w => next w
  | w => some (stop w)

theorem afterValue_stop {next : Text → Option β} {stop : Text → β} {s : Text} (h : ∀ w, s ≠ ',' :: w) :
    afterValue next stop s = some (stop s) := by
  unfold afterValue
  split
  · exact absurd rfl (h _)
  · rfl

/-- A field whose key ends in front of what is left. -/
def objectField (serde : GemmaSerde) (obj : List (Name × Value)) (key : Name) : Text → Option (Value × Text)
  | [] => none
  | _ :: u =>
    (value serde u).bind fun x =>
      afterValue (objectBody serde (mapInsert key x.1 obj)) (fun w => (.object (mapInsert key x.1 obj), w)) (skipWs x.2)

def objectFrom (serde : GemmaSerde) (obj : List (Name × Value)) : Text → Option (Value × Text)
  | [] => some (.object obj, [])
  | c :: t =>
    if c = '}' then some (.object obj, c :: t)
    else objectField serde obj (trim ((c :: t).takeWhile (· != ':'))) ((c :: t).dropWhile (· != ':'))

def valueFrom (serde : GemmaSerde) : Text → Option (Value × Text)
  | [] => some (.null, [])
  | c :: t =>
    if stringQuote.isPrefixOf (c :: t) then
      (find stringQuote ((c :: t).drop stringQuote.length)).map fun n =>
        (.string (((c :: t).drop stringQuote.length).take n),
          ((c :: t).drop stringQuote.length).drop (n + stringQuote.length))
    else if c = '{' then (objectBody serde [] t).map fun x => (x.1, closed '}' x.2)
    else if c = '[' then (array serde [] t).map fun x => (.array x.1, closed ']' x.2)
    else
      some (bareValue serde (trim ((c :: t).takeWhile fun d => !endsBare d)),
        (c :: t).dropWhile fun d => !endsBare d)

def arrayFrom (serde : GemmaSerde) (values : List Value) (s : Text) : Text → Option (List Value × Text)
  | [] => some (values, [])
  | c :: t =>
    if c = ']' then some (values, c :: t)
    else
      (value serde s).bind fun x =>
        afterValue (array serde (values ++ [x.1])) (fun w => (values ++ [x.1], w)) (skipWs x.2)

theorem objectBody_eq (serde : GemmaSerde) (obj : List (Name × Value)) (s : Text) :
    objectBody serde obj s = objectFrom serde obj (skipWs s) := by
  unfold objectBody
  rw [parseObjectBody]
  split
  · rename_i hs
    exact (congrArg (objectFrom serde obj) hs).symm
  · rename_i c t hs
    refine .trans ?_ (congrArg (objectFrom serde obj) hs).symm
    unfold objectFrom
    dsimp only
    by_cases hc : c = '}'
    · rw [if_pos hc, if_pos hc]
      rfl
    rw [if_neg hc, if_neg hc]
    split
    · rename_i hk
      exact (congrArg (objectField serde obj _) hk).symm
    · rename_i d u hk
      refine .trans ?_ (congrArg (objectField serde obj _) hk).symm
      unfold objectField value
      dsimp only
      cases hv : parseValue serde u with
      | none => rfl
      | some x =>
        obtain ⟨v, r⟩ := x
        simp only [Option.map_some, Option.bind_some]
        split
        · rename_i w hw
          rw [Option.map_map]
          refine .trans ?_ (congrArg (afterValue _ _) hw).symm
          rfl
        · rename_i hw
          exact (afterValue_stop hw).symm

theorem value_eq (serde : GemmaSerde) (s : Text) : value serde s = valueFrom serde (skipWs s) := by
  unfold value
  rw [parseValue]
  split
  · rename_i hs
    exact (congrArg (valueFrom serde) hs).symm
  · rename_i c t hs
    refine .trans ?_ (congrArg (valueFrom serde) hs).symm
    unfold valueFrom
    dsimp only
    by_cases hq : stringQuote.isPrefixOf (c :: t) = true
    · rw [if_pos hq, if_pos hq, Option.map_map, quoted]
      cases find stringQuote ((c :: t).drop stringQuote.length) <;> rfl
    rw [if_neg hq, if_neg hq]
    by_cases hobj : c = '{'
    · rw [if_pos hobj, if_pos hobj]
      unfold objectBody
      cases hv : parseObjectBody serde [] t with
      | none => rfl
      | some x =>
        obtain ⟨v, r⟩ := x
        dsimp only [Option.map_some]
        unfold closed
        split
        · rename_i w hw
          rw [if_pos (by rw [hw]; rfl)]
          rfl
        · rename_i hne
          rw [if_neg ?_]
          rfl
          intro hhead
          obtain ⟨w, hw⟩ := List.head?_eq_some_iff.mp hhead
          exact hne w hw
    rw [if_neg hobj, if_neg hobj]
    by_cases harr : c = '['
    · rw [if_pos harr, if_pos harr]
      unfold array
      cases hv : parseArray serde [] t with
      | none => rfl
      | some x =>
        obtain ⟨v, r⟩ := x
        dsimp only [Option.map_some]
        unfold closed
        split
        · rename_i w hw
          rw [if_pos (by rw [hw]; rfl)]
          rfl
        · rename_i hne
          rw [if_neg ?_]
          rfl
          intro hhead
          obtain ⟨w, hw⟩ := List.head?_eq_some_iff.mp hhead
          exact hne w hw
    rw [if_neg harr, if_neg harr]
    rfl

theorem array_eq (serde : GemmaSerde) (values : List Value) (s : Text) :
    array serde values s = arrayFrom serde values s (skipWs s) := by
  unfold array
  rw [parseArray]
  split
  · rename_i hs
    exact (congrArg (arrayFrom serde values s) hs).symm
  · rename_i c t hs
    refine .trans ?_ (congrArg (arrayFrom serde values s) hs).symm
    unfold arrayFrom
    dsimp only
    by_cases hc : c = ']'
    · rw [if_pos hc, if_pos hc]
      rfl
    rw [if_neg hc, if_neg hc]
    unfold value
    cases hv : parseValue serde s with
    | none => rfl
    | some x =>
      obtain ⟨v, r⟩ := x
      simp only [Option.map_some, Option.bind_some]
      split
      · rename_i w hw
        rw [Option.map_map]
        refine .trans ?_ (congrArg (afterValue _ _) hw).symm
        rfl
      · rename_i hw
        exact (afterValue_stop hw).symm

theorem parseArgsBody_eq (serde : GemmaSerde) (body : Text) :
    parseArgsBody serde body =
      if (skipWs body).isEmpty then some (.object []) else (objectBody serde [] body).map (·.1) := by
  unfold parseArgsBody objectBody
  rw [Option.map_map]
  rfl

end Flambeau.Server.ToolCallParser.Gemma4
