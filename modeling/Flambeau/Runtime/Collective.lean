import Mathlib.Data.List.OfFn

namespace Flambeau.Runtime.Collective

inductive ReduceOp where
  | sum
  | max
  | min

inductive CollectiveDType where
  | f32
  | f16
deriving DecidableEq

def CollectiveDType.bytes : CollectiveDType → Nat
  | .f32 => 4
  | .f16 => 2

structure CollectiveCfg where
  elemCount : Nat
  dtype : CollectiveDType
  op : ReduceOp

def CollectiveCfg.bufferBytes (cfg : CollectiveCfg) : Nat := cfg.elemCount * cfg.dtype.bytes

inductive CollectiveError where
  | rankOutOfRange (rank size : Nat)
  | bufferLen (expectedElems : Nat) (dtype : CollectiveDType) (got : Nat)
deriving DecidableEq

abbrev Bytes := List UInt8

/-- The arithmetic of `f32` and `half::f16`, on bit patterns. -/
structure Floats where
  add : UInt32 → UInt32 → UInt32
  max : UInt32 → UInt32 → UInt32
  min : UInt32 → UInt32 → UInt32
  toF32 : UInt16 → UInt32
  fromF32 : UInt32 → UInt16

def Floats.apply (F : Floats) : ReduceOp → UInt32 → UInt32 → UInt32
  | .sum => F.add
  | .max => F.max
  | .min => F.min

/-! Buffers. A length that does not fit is a panic. -/

/-- `cast_slice` to `f32`. -/
def words : Bytes → Option (List UInt32)
  | [] => some []
  | a :: b :: c :: d :: rest =>
    (words rest).map fun ws =>
      (a.toUInt32 ||| b.toUInt32 <<< 8 ||| c.toUInt32 <<< 16 ||| d.toUInt32 <<< 24) :: ws
  | _ => none

def wordBytes (w : UInt32) : Bytes := [w.toUInt8, (w >>> 8).toUInt8, (w >>> 16).toUInt8, (w >>> 24).toUInt8]

/-- `cast_slice` to `half::f16`. -/
def halves : Bytes → Option (List UInt16)
  | [] => some []
  | a :: b :: rest => (halves rest).map fun hs => (a.toUInt16 ||| b.toUInt16 <<< 8) :: hs
  | _ => none

def halfBytes (h : UInt16) : Bytes := [h.toUInt8, (h >>> 8).toUInt8]

/-- The elements of a buffer, as the accumulator has them. -/
def load (F : Floats) : CollectiveDType → Bytes → Option (List UInt32)
  | .f32, b => words b
  | .f16, b => (halves b).map fun hs => hs.map F.toF32

def store (F : Floats) : CollectiveDType → List UInt32 → Bytes
  | .f32, acc => acc.flatMap wordBytes
  | .f16, acc => acc.flatMap fun w => halfBytes (F.fromF32 w)

/-- `copy_from_slice`. -/
def copyFromSlice (dst src : Bytes) : Option Bytes := if dst.length = src.length then some src else none

/-- `dst[a..b].copy_from_slice(src)`. -/
def copyAt (dst : Bytes) (a b : Nat) (src : Bytes) : Option Bytes :=
  if a ≤ b ∧ b ≤ dst.length then (copyFromSlice ((dst.drop a).take (b - a)) src).map fun src => dst.take a ++ (src ++ dst.drop b)
  else none

/-- `&s[a..b]`. -/
def sliceBytes (s : Bytes) (a b : Nat) : Option Bytes := if a ≤ b ∧ b ≤ s.length then some ((s.drop a).take (b - a)) else none

/-! `reduce_slots_typed` and `reduce_slots_typed_f16`. -/

/-- `for i in 0..n`. -/
def foldIn (op : UInt32 → UInt32 → UInt32) (n : Nat) (acc xs : List UInt32) : Option (List UInt32) :=
  (List.range n).foldlM (fun acc i => acc[i]?.bind fun a => xs[i]?.map fun x => acc.set i (op a x)) acc

def reduceSlots (F : Floats) (cfg : CollectiveCfg) : List Bytes → Option (List Bytes)
  | [] => none
  | first :: others =>
    (load F cfg.dtype first).bind fun acc =>
      (others.foldlM (fun acc rankBuf =>
        (load F cfg.dtype rankBuf).bind fun xs => foldIn (F.apply cfg.op) cfg.elemCount acc xs) acc).bind fun acc =>
        (first :: others).mapM fun rankBuf => copyFromSlice rankBuf (store F cfg.dtype acc)

/-- `for r in 0..size`, the shard of each rank into its place. -/
def copyShards (shard size : Nat) (src : Nat → Option Bytes) (recv : Bytes) : Option Bytes :=
  (List.range size).foldlM (fun recv r => (src r).bind fun x => copyAt recv (r * shard) ((r + 1) * shard) x) recv

/-! What a collective is to give. -/

/-- The element at `i`. -/
def element (F : Floats) (dtype : CollectiveDType) (i : Nat) (b : Bytes) : UInt32 :=
  ((load F dtype b).getD [])[i]?.getD 0

/-- The ranks' values of one element, reduced in the order of the ranks. -/
def reduceElement (op : UInt32 → UInt32 → UInt32) : List UInt32 → UInt32
  | [] => 0
  | x :: xs => xs.foldl op x

/-- The element-wise reduction of the ranks' buffers. -/
def reduced (F : Floats) (cfg : CollectiveCfg) (inputs : List Bytes) : Bytes :=
  store F cfg.dtype
    ((List.range cfg.elemCount).map fun i => reduceElement (F.apply cfg.op) (inputs.map (element F cfg.dtype i)))

/-- The shards that the ranks have for rank `me`, in the order of the ranks. -/
def shardsFor (shard me : Nat) (inputs : List Bytes) : Bytes :=
  inputs.flatMap fun b => (b.drop (me * shard)).take shard

/-! The loops give just that. -/

theorem words_length {n : Nat} : ∀ {b : Bytes}, b.length = n * 4 → ∃ ws, words b = some ws ∧ ws.length = n := by
  induction n with
  | zero =>
    intro b hb
    rw [Nat.zero_mul] at hb
    exact ⟨[], by rw [List.eq_nil_of_length_eq_zero hb]; rfl, rfl⟩
  | succ n ih =>
    intro b hb
    match b with
    | [] | [_] | [_, _] | [_, _, _] =>
      simp only [List.length_cons, List.length_nil] at hb
      omega
    | x :: y :: z :: w :: rest =>
      simp only [List.length_cons] at hb
      obtain ⟨ws, hws, hlen⟩ := ih (b := rest) (by omega)
      exact ⟨_, by rw [words, hws]; rfl, by rw [List.length_cons, hlen]⟩

theorem halves_length {n : Nat} : ∀ {b : Bytes}, b.length = n * 2 → ∃ hs, halves b = some hs ∧ hs.length = n := by
  induction n with
  | zero =>
    intro b hb
    rw [Nat.zero_mul] at hb
    exact ⟨[], by rw [List.eq_nil_of_length_eq_zero hb]; rfl, rfl⟩
  | succ n ih =>
    intro b hb
    match b with
    | [] | [_] =>
      simp only [List.length_cons, List.length_nil] at hb
      omega
    | x :: y :: rest =>
      simp only [List.length_cons] at hb
      obtain ⟨hs, hhs, hlen⟩ := ih (b := rest) (by omega)
      exact ⟨_, by rw [halves, hhs]; rfl, by rw [List.length_cons, hlen]⟩

theorem load_length (F : Floats) {cfg : CollectiveCfg} {b : Bytes} (hb : b.length = cfg.bufferBytes) :
    ∃ xs, load F cfg.dtype b = some xs ∧ xs.length = cfg.elemCount := by
  unfold CollectiveCfg.bufferBytes at hb
  unfold load
  cases hd : cfg.dtype with
  | f32 =>
    rw [hd] at hb
    exact words_length hb
  | f16 =>
    rw [hd] at hb
    obtain ⟨hs, hhs, hlen⟩ := halves_length hb
    exact ⟨hs.map F.toF32, by dsimp only; rw [hhs]; rfl, by rw [List.length_map, hlen]⟩

theorem flatMap_length {f : UInt32 → Bytes} (hf : ∀ w, (f w).length = k) (ws : List UInt32) :
    (ws.flatMap f).length = ws.length * k := by
  induction ws with
  | nil => rw [List.flatMap_nil, List.length_nil, List.length_nil, Nat.zero_mul]
  | cons w ws ih => rw [List.flatMap_cons, List.length_append, hf, ih, List.length_cons, Nat.succ_mul, Nat.add_comm]

theorem store_length (F : Floats) {cfg : CollectiveCfg} {acc : List UInt32} (hacc : acc.length = cfg.elemCount) :
    (store F cfg.dtype acc).length = cfg.bufferBytes := by
  unfold store CollectiveCfg.bufferBytes
  rw [← hacc]
  cases cfg.dtype with
  | f32 => exact flatMap_length (f := wordBytes) (fun _ => rfl) acc
  | f16 => exact flatMap_length (f := fun w => halfBytes (F.fromF32 w)) (fun _ => rfl) acc

theorem reduced_length (F : Floats) (cfg : CollectiveCfg) (inputs : List Bytes) :
    (reduced F cfg inputs).length = cfg.bufferBytes := store_length F (by rw [List.length_map, List.length_range])

/-- Behind what the loop has done already. -/
theorem foldIn_from (op : UInt32 → UInt32 → UInt32) {n : Nat} {front acc front' xs : List UInt32}
    (hfront : front.length = k) (hfront' : front'.length = k) (hacc : acc.length = n) (hxs : xs.length = n) :
    (List.range' k n).foldlM
      (fun acc i => acc[i]?.bind fun a => (front' ++ xs)[i]?.map fun x => acc.set i (op a x)) (front ++ acc) =
      some (front ++ List.zipWith op acc xs) := by
  induction n generalizing front acc front' xs k with
  | zero =>
    rw [List.eq_nil_of_length_eq_zero hacc]
    rfl
  | succ n ih =>
    obtain ⟨a, acc, rfl⟩ := List.exists_cons_of_length_eq_add_one hacc
    obtain ⟨x, xs, rfl⟩ := List.exists_cons_of_length_eq_add_one hxs
    have hhere : (front ++ a :: acc)[k]? = some a := by
      rw [List.getElem?_append_right (by omega), hfront, Nat.sub_self]
      rfl
    have hthere : (front' ++ x :: xs)[k]? = some x := by
      rw [List.getElem?_append_right (by omega), hfront', Nat.sub_self]
      rfl
    have hset : (front ++ a :: acc).set k (op a x) = (front ++ [op a x]) ++ acc := by
      rw [List.set_append_right _ _ (by omega), hfront, Nat.sub_self, List.set_cons_zero, List.append_assoc,
        List.singleton_append]
    have hfront₁ : (front ++ [op a x]).length = k + 1 := by rw [List.length_append, hfront, List.length_singleton]
    have hfront₂ : (front' ++ [x]).length = k + 1 := by rw [List.length_append, hfront', List.length_singleton]
    have hrest := ih hfront₁ hfront₂ (Nat.succ.inj hacc) (Nat.succ.inj hxs)
    rw [List.append_assoc front', List.singleton_append] at hrest
    rw [List.range'_succ, List.foldlM_cons, hhere, Option.bind_some, hthere, Option.map_some, hset]
    refine hrest.trans ?_
    rw [List.append_assoc, List.singleton_append, List.zipWith_cons_cons]

theorem foldIn_eq (op : UInt32 → UInt32 → UInt32) {acc xs : List UInt32} (hacc : acc.length = n) (hxs : xs.length = n) :
    foldIn op n acc xs = some (List.zipWith op acc xs) := by
  unfold foldIn
  rw [List.range_eq_range']
  exact @foldIn_from _ op _ [] _ [] _ rfl rfl hacc hxs

theorem element_eq {F : Floats} {dtype : CollectiveDType} {b : Bytes} (hb : load F dtype b = some xs) (i : Nat) :
    element F dtype i b = xs[i]?.getD 0 := by rw [element, hb, Option.getD_some]

/-- The ranks' buffers are folded in, one after the other. -/
theorem fold_ranks (F : Floats) (cfg : CollectiveCfg) {others : List Bytes} {acc : List UInt32}
    (hacc : acc.length = cfg.elemCount) (hothers : ∀ b ∈ others, b.length = cfg.bufferBytes) :
    others.foldlM (fun acc rankBuf =>
      (load F cfg.dtype rankBuf).bind fun xs => foldIn (F.apply cfg.op) cfg.elemCount acc xs) acc =
      some ((List.range cfg.elemCount).map fun i =>
        (others.map (element F cfg.dtype i)).foldl (F.apply cfg.op) (acc[i]?.getD 0)) := by
  induction others generalizing acc with
  | nil =>
    rw [List.foldlM_nil]
    refine congrArg some (List.ext_getElem? fun i => ?_)
    rw [List.getElem?_map]
    by_cases hi : i < cfg.elemCount
    · rw [List.getElem?_range hi, Option.map_some, List.getElem?_eq_getElem (by omega)]
      rfl
    · rw [List.getElem?_eq_none (by omega), List.getElem?_eq_none (by rw [List.length_range]; omega)]
      rfl
  | cons b others ih =>
    obtain ⟨xs, hxs, hlen⟩ := load_length F (hothers b List.mem_cons_self)
    have hzip : (List.zipWith (F.apply cfg.op) acc xs).length = cfg.elemCount := by
      rw [List.length_zipWith, hacc, hlen, Nat.min_self]
    rw [List.foldlM_cons, hxs, Option.bind_some, foldIn_eq _ hacc hlen]
    refine (ih hzip fun b' hb' => hothers b' (List.mem_cons_of_mem b hb')).trans ?_
    refine congrArg some (List.map_congr_left fun i hi => ?_)
    have hi := List.mem_range.mp hi
    rw [List.map_cons, List.foldl_cons, element_eq hxs, List.getElem?_zipWith,
      List.getElem?_eq_getElem (by omega : i < acc.length), List.getElem?_eq_getElem (by omega : i < xs.length)]
    rfl

theorem mapM_copy {dsts : List Bytes} {src : Bytes} (h : ∀ d ∈ dsts, d.length = src.length) :
    (dsts.mapM fun d => copyFromSlice d src) = some (dsts.map fun _ => src) := by
  induction dsts with
  | nil => rfl
  | cons d dsts ih =>
    have ih := ih fun d' hd' => h d' (List.mem_cons_of_mem d hd')
    rw [List.mapM_cons, copyFromSlice, if_pos (h d List.mem_cons_self), ih]
    rfl

theorem reduceSlots_eq (F : Floats) (cfg : CollectiveCfg) {slots : List Bytes} (hne : slots ≠ [])
    (hslots : ∀ b ∈ slots, b.length = cfg.bufferBytes) :
    reduceSlots F cfg slots = some (slots.map fun _ => reduced F cfg slots) := by
  obtain ⟨first, others, rfl⟩ := List.exists_cons_of_ne_nil hne
  obtain ⟨acc, hacc, hlen⟩ := load_length F (hslots first List.mem_cons_self)
  have hothers : ∀ b ∈ others, b.length = cfg.bufferBytes := fun b hb => hslots b (List.mem_cons_of_mem first hb)
  have hreduced : store F cfg.dtype ((List.range cfg.elemCount).map fun i =>
      (others.map (element F cfg.dtype i)).foldl (F.apply cfg.op) (acc[i]?.getD 0)) =
      reduced F cfg (first :: others) := by
    unfold reduced
    refine congrArg _ (List.map_congr_left fun i _ => ?_)
    rw [List.map_cons, reduceElement, element_eq hacc]
  rw [reduceSlots, hacc, Option.bind_some, fold_ranks F cfg hlen hothers, Option.bind_some, hreduced]
  exact mapM_copy fun d hd => by rw [hslots d hd, reduced_length]

theorem copyAt_eq {front old rest src : Bytes} (hfront : front.length = a) (hold : old.length = src.length)
    (hb : b = a + src.length) : copyAt (front ++ (old ++ rest)) a b src = some (front ++ (src ++ rest)) := by
  have hin : a ≤ b ∧ b ≤ (front ++ (old ++ rest)).length := by
    rw [List.length_append, List.length_append]
    omega
  have hmid : ((front ++ (old ++ rest)).drop a).take (b - a) = old := by
    rw [← hfront, List.drop_left, show b - front.length = old.length by omega, List.take_left]
  have hbehind : (front ++ (old ++ rest)).drop b = rest := by
    rw [← List.append_assoc, show b = (front ++ old).length by rw [List.length_append]; omega, List.drop_left]
  rw [copyAt, if_pos hin, hmid, copyFromSlice, if_pos hold, Option.map_some, hbehind, ← hfront, List.take_left]

/-- Behind the shards that are in place already. -/
theorem copyShards_from {shard k : Nat} {src : Nat → Option Bytes} {xs : List Bytes} {front rest : Bytes}
    (hfront : front.length = k * shard) (hrest : rest.length = xs.length * shard)
    (hsrc : ∀ i x, xs[i]? = some x → src (k + i) = some x) (hxs : ∀ x ∈ xs, x.length = shard) :
    (List.range' k xs.length).foldlM
      (fun recv r => (src r).bind fun x => copyAt recv (r * shard) ((r + 1) * shard) x) (front ++ rest) =
      some (front ++ xs.flatten) := by
  induction xs generalizing front rest k with
  | nil =>
    rw [List.length_nil, Nat.zero_mul] at hrest
    rw [List.eq_nil_of_length_eq_zero hrest]
    rfl
  | cons x xs ih =>
    have hx := hxs x List.mem_cons_self
    rw [List.length_cons, Nat.succ_mul] at hrest
    have hsplit : rest = rest.take shard ++ rest.drop shard := (List.take_append_drop shard rest).symm
    have hcopy : copyAt (front ++ rest) (k * shard) ((k + 1) * shard) x = some ((front ++ x) ++ rest.drop shard) := by
      rw [hsplit, copyAt_eq hfront (by rw [List.length_take]; omega) (by rw [Nat.succ_mul, hx]), List.append_assoc,
        ← hsplit]
    have hnext := ih (show (front ++ x).length = (k + 1) * shard by rw [List.length_append, hfront, hx, Nat.succ_mul])
      (show (rest.drop shard).length = xs.length * shard by rw [List.length_drop]; omega)
      (fun i y hy => by rw [Nat.add_assoc, Nat.add_comm 1]; exact hsrc (i + 1) y hy)
      (fun y hy => hxs y (List.mem_cons_of_mem x hy))
    rw [List.length_cons, List.range'_succ, List.foldlM_cons, show src k = some x from hsrc 0 x rfl, Option.bind_some, hcopy]
    refine hnext.trans ?_
    rw [List.flatten_cons, List.append_assoc]

theorem copyShards_eq {shard : Nat} {src : Nat → Option Bytes} {xs : List Bytes} {recv : Bytes}
    (hrecv : recv.length = shard * xs.length) (hsrc : ∀ i x, xs[i]? = some x → src i = some x)
    (hxs : ∀ x ∈ xs, x.length = shard) : copyShards shard xs.length src recv = some xs.flatten := by
  unfold copyShards
  rw [List.range_eq_range']
  exact @copyShards_from _ _ _ _ [] _ (Nat.zero_mul shard).symm (by rw [hrecv, Nat.mul_comm])
    (fun i x hx => by rw [Nat.zero_add]; exact hsrc i x hx) hxs

end Flambeau.Runtime.Collective
