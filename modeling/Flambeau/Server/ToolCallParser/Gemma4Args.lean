import Flambeau.Server.ToolCallParser.Serde

namespace Flambeau.Server.ToolCallParser.Gemma4
open Flambeau.Stream Flambeau.Runtime.JsonSchema

/-- What this parser uses of `serde_json` and of Rust's floats; `none` is an
`Err`. -/
structure GemmaSerde extends SerdeJson where
  /-- The first value of a `StreamDeserializer`. -/
  firstValue : Text → Option Value
  /-- `parse::<f64>`, then `Number::from_f64`. -/
  parseF64 : Text → Option Value

def stringQuote : Text := ['<', '|', '"', '|', '>']

def isAsciiWhitespace (c : Char) : Bool :=
  c == ' ' || c == '\t' || c == '\n' || c.toNat == 0x0C || c == '\r'

/-- `Map::insert`, which keeps the place of a key that is already there. -/
def mapInsert (key : Name) (v : Value) : List (Name × Value) → List (Name × Value)
  | [] => [(key, v)]
  | f :: fields => if f.1 = key then (key, v) :: fields else f :: mapInsert key v fields

/-- `Map::insert` with a new key. -/
theorem mapInsert_new {key : Name} {fields : List (Name × Value)} (h : key ∉ fields.map (·.1)) (v : Value) :
    mapInsert key v fields = fields ++ [(key, v)] := by
  induction fields with
  | nil => rfl
  | cons f fields ih =>
    rw [List.map_cons, List.mem_cons, not_or] at h
    rw [mapInsert, if_neg fun heq => h.1 heq.symm, ih h.2]
    rfl

/-! `Parser`, by the text that is left. -/

/-- What is left of a text. -/
def Rest (s : Text) : Type := { r : Text // r.length ≤ s.length }

/-- What is left of what was left. -/
def Rest.within (h : t.length ≤ s.length) (r : Rest t) : Rest s := ⟨r.val, Nat.le_trans r.property h⟩

def skipWs (s : Text) : Text := s.dropWhile isAsciiWhitespace

theorem skipWs_length (s : Text) : (skipWs s).length ≤ s.length :=
  (List.dropWhile_suffix isAsciiWhitespace).length_le

theorem skipWs_cons (h : skipWs s = c :: t) : t.length < s.length := by
  have hle := skipWs_length s
  rw [h, List.length_cons] at hle
  omega

def digits (n : Nat) : Text := Nat.toDigits 10 n

/-- `Value::from(n)`. -/
def integer (n : Int) : Value :=
  .number ((if n < 0 then '-' :: digits n.natAbs else digits n.natAbs).map fun c => c.toNat.toUInt8)

/-- `parse::<i64>`. -/
def parseI64 (s : Text) : Option Int :=
  let (negative, ds) :=
    match s with
    | '-' :: ds => (true, ds)
    | '+' :: ds => (false, ds)
    | ds => (false, ds)
  if ds.isEmpty || !ds.all Char.isDigit then none
  else
    let m : Int := (ds.foldl (fun n c => 10 * n + (c.toNat - '0'.toNat)) 0 : Nat)
    let n := if negative then -m else m
    if -2 ^ 63 ≤ n ∧ n < 2 ^ 63 then some n else none

/-- The value of a bare token. -/
def bareValue (serde : GemmaSerde) (raw : Text) : Value :=
  if raw = ['t', 'r', 'u', 'e'] then .bool true
  else if raw = ['f', 'a', 'l', 's', 'e'] then .bool false
  else if raw = ['n', 'u', 'l', 'l'] then .null
  else
    match parseI64 raw with
    | some n => integer n
    | none => (serde.parseF64 raw).getD (.string raw)

def endsBare (c : Char) : Bool := c == ',' || c == '}' || c == ']'

/-- The string behind an opening quote, and what follows its closing quote. -/
def quoted (s : Text) : Option (Text × Rest s) :=
  match find stringQuote s with
  | some n => some (s.take n, ⟨s.drop (n + stringQuote.length), (List.drop_suffix _ s).length_le⟩)
  | none => none

mutual

/-- `parse_object_body`; the message of an error is dropped by its caller. -/
def parseObjectBody (serde : GemmaSerde) (obj : List (Name × Value)) (s : Text) :
    Option (Value × Rest s) :=
  match hs : skipWs s with
  | [] => some (.object obj, ⟨[], Nat.zero_le _⟩)
  | c :: t =>
    if c = '}' then some (.object obj, ⟨c :: t, skipWs_cons hs⟩)
    else
      match hk : (c :: t).dropWhile (· != ':') with
      | [] => none
      | _ :: u =>
        have hu : u.length < s.length := by
          have hle := (List.dropWhile_suffix (l := c :: t) (· != ':')).length_le
          have hlt := skipWs_cons hs
          rw [hk, List.length_cons, List.length_cons] at hle
          omega
        match parseValue serde u with
        | none => none
        | some (v, r) =>
          have hr : r.val.length ≤ u.length := r.property
          let obj := mapInsert (trim ((c :: t).takeWhile (· != ':'))) v obj
          match hw : skipWs r.val with
          | ',' :: w =>
            have hlt := skipWs_cons hw
            (parseObjectBody serde obj w).map fun x => (x.1, x.2.within (by omega))
          | w => some (.object obj, ⟨w, by
              have hle := skipWs_length r.val
              rw [hw] at hle
              omega⟩)
termination_by (s.length, 0)

def parseValue (serde : GemmaSerde) (s : Text) : Option (Value × Rest s) :=
  match hs : skipWs s with
  | [] => some (.null, ⟨[], Nat.zero_le _⟩)
  | c :: t =>
    have ht : t.length < s.length := skipWs_cons hs
    if stringQuote.isPrefixOf (c :: t) then
      (quoted ((c :: t).drop stringQuote.length)).map fun x => (.string x.1, x.2.within (by
        rw [List.length_drop, List.length_cons]
        omega))
    else if c = '{' then
      match parseObjectBody serde [] t with
      | none => none
      | some (v, r) =>
        have hr : r.val.length ≤ t.length := r.property
        match r.val with
        | '}' :: w => some (v, ⟨r.val.drop 1, by
            rw [List.length_drop]
            omega⟩)
        | w => some (v, r.within (Nat.le_of_lt ht))
    else if c = '[' then
      match parseArray serde [] t with
      | none => none
      | some (values, r) =>
        have hr : r.val.length ≤ t.length := r.property
        match r.val with
        | ']' :: w => some (.array values, ⟨r.val.drop 1, by
            rw [List.length_drop]
            omega⟩)
        | w => some (.array values, r.within (Nat.le_of_lt ht))
    else
      some (bareValue serde (trim ((c :: t).takeWhile fun d => !endsBare d)),
        ⟨(c :: t).dropWhile fun d => !endsBare d, by
          have hle := (List.dropWhile_suffix (l := c :: t) fun d => !endsBare d).length_le
          rw [List.length_cons] at hle
          omega⟩)
termination_by (s.length, 0)

/-- The loop over the values of an array. -/
def parseArray (serde : GemmaSerde) (values : List Value) (s : Text) :
    Option (List Value × Rest s) :=
  match hs : skipWs s with
  | [] => some (values, ⟨[], Nat.zero_le _⟩)
  | c :: t =>
    have ht : t.length < s.length := skipWs_cons hs
    if c = ']' then some (values, ⟨c :: t, ht⟩)
    else
      match parseValue serde s with
      | none => none
      | some (v, r) =>
        have hr : r.val.length ≤ s.length := r.property
        match hw : skipWs r.val with
        | ',' :: w =>
          have hlt := skipWs_cons hw
          (parseArray serde (values ++ [v]) w).map fun x => (x.1, x.2.within (by omega))
        | w => some (values ++ [v], ⟨w, by
            have hle := skipWs_length r.val
            rw [hw] at hle
            omega⟩)
termination_by (s.length, 1)

end

/-- `parse_args_body`. -/
def parseArgsBody (serde : GemmaSerde) (body : Text) : Option Value :=
  if (skipWs body).isEmpty then some (.object []) else (parseObjectBody serde [] body).map (·.1)

end Flambeau.Server.ToolCallParser.Gemma4
