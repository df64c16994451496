import Flambeau.Forward.Gdn.Layer

namespace Flambeau.Forward.Gdn
open Systems

theorem foldl_range_congr {f g : β → Nat → β} (h : ∀ acc k, k < n → f acc k = g acc k) (b : β) :
    (List.range n).foldl f b = (List.range n).foldl g b := by
  induction n with
  | zero => rfl
  | succ n ih =>
    rw [List.range_succ, List.foldl_append, List.foldl_append,
      ih fun acc k hk => h acc k (Nat.lt_succ_of_lt hk)]
    exact h _ n (Nat.lt_succ_self n)

/-- A loop to a fixed bound with a guard runs to the guard's. -/
theorem foldl_range_guard (f : β → Nat → β) (b : β) (h : m ≤ n) :
    (List.range n).foldl (fun acc k => if k < m then f acc k else acc) b =
      (List.range m).foldl f b := by
  induction n with
  | zero =>
    obtain rfl := Nat.le_zero.mp h
    rfl
  | succ n ih =>
    rcases Nat.lt_or_eq_of_le h with hlt | rfl
    · rw [List.range_succ, List.foldl_append, ih (Nat.le_of_lt_succ hlt)]
      exact if_neg (Nat.not_lt.mpr (Nat.le_of_lt_succ hlt))
    · exact foldl_range_congr (fun acc k hk => if_pos hk) b

section Rows

variable {R : Type} [Zero R]

theorem rowAt_append_left {history rows : List (Nat → R)} (h : t < history.length) :
    rowAt (history ++ rows) t = rowAt history t := by
  unfold rowAt
  rw [List.getElem?_append_left h]

theorem rowAt_append_self (history : List (Nat → R)) (row : Nat → R) :
    rowAt (history ++ [row]) history.length = row := by
  unfold rowAt
  rw [List.getElem?_append_right (Nat.le_refl _), Nat.sub_self]
  rfl

theorem rowAt_drop (rows : List (Nat → R)) (n t : Nat) :
    rowAt (rows.drop n) t = rowAt rows (n + t) := by
  unfold rowAt
  rw [List.getElem?_drop]

end Rows

section Conv

variable {R : Type} [Zero R] [Add R] [Mul R]

/-- A thread reads `conv_kernel` rows from its own on. -/
theorem convThread_drop (rows : List (Nat → R)) (weight : Nat → Nat → R) (convKernel n t : Nat) :
    convThread (rows.drop n) weight convKernel t = convThread rows weight convKernel (n + t) := by
  funext c
  unfold convThread
  congr 1
  funext acc k
  rw [rowAt_drop, Nat.add_assoc]

theorem convThread_append {history rows : List (Nat → R)} {weight : Nat → Nat → R}
    (h : t + convKernel ≤ history.length) :
    convThread (history ++ rows) weight convKernel t = convThread history weight convKernel t := by
  funext c
  unfold convThread
  apply foldl_range_congr
  intro acc k hk
  rw [rowAt_append_left (by omega)]

/-- The registers hold the sum and the shift of one row of the conv. -/
theorem convTrioDecode_eq {history : List (Nat → R)} {convKernel : Nat} (newVal : Nat → R)
    (weight : Nat → Nat → R) (hrows : history.length = convKernel - 1) (hpos : 0 < convKernel)
    (hkernel : convKernel ≤ convTrioKernelMax) :
    convTrioDecode history newVal weight convKernel =
      (convThread (history ++ [newVal]) weight convKernel 0,
        ((history ++ [newVal]).drop 1).take (convKernel - 1)) := by
  obtain ⟨histRows, rfl⟩ : ∃ n, convKernel = n + 1 := ⟨convKernel - 1, by omega⟩
  rw [Nat.add_sub_cancel] at hrows ⊢
  have hmax : histRows ≤ convTrioKernelMax - 1 := Nat.le_sub_of_add_le hkernel
  unfold convTrioDecode
  rw [Nat.add_sub_cancel]
  refine Prod.ext ?_ ?_
  · funext c
    unfold convThread
    dsimp only
    rw [foldl_range_guard _ _ hmax, List.range_succ, List.foldl_append]
    have hold : (List.range histRows).foldl
        (fun acc k => acc + rowAt history k c * weight c k) 0 =
        (List.range histRows).foldl
          (fun acc k => acc + rowAt (history ++ [newVal]) (0 + k) c * weight c k) 0 := by
      apply foldl_range_congr
      intro acc k hk
      rw [Nat.zero_add, rowAt_append_left (by omega)]
    have hnew : rowAt (history ++ [newVal]) (0 + histRows) = newVal := by
      rw [Nat.zero_add, ← hrows]
      exact rowAt_append_self history newVal
    simp only [List.foldl_cons, List.foldl_nil, hold, hnew]
  · apply List.ext_getElem
    · simp
      omega
    · intro k hk _
      have hlt : k < histRows := by simpa [hrows] using hk
      have hguard : k < convTrioKernelMax - 1 ∧ k < histRows := ⟨by omega, hlt⟩
      simp only [List.getElem_map, List.getElem_range, if_pos hguard, List.getElem_take,
        List.getElem_drop]
      by_cases hnext : k + 1 < histRows
      · rw [if_pos hnext, List.getElem_append_left (by omega)]
        unfold rowAt
        rw [List.getElem?_eq_getElem (by omega), Option.getD_some]
        congr 1
        omega
      · rw [if_neg hnext, List.getElem_append_right (by omega)]
        simp

end Conv

namespace GdnLayer

variable {X Z Y R : Type} [Zero R] [Add R] [Mul R] [Sub R] (layer : GdnLayer X Z Y R)

/-- One token through the conv: the history shifts by its row. -/
def convStep (history : List (Nat → R)) (x : X) : List (Nat → R) × (Nat → R) :=
  let w := layer.weights
  let convKernel := layer.dims.convKernel
  let convInput := assembleConvInput history [w.attnQkv x]
  ((convInput.drop 1).take (convKernel - 1),
    fun c => w.silu (convThread convInput w.ssmConv1d convKernel 0 c))

/-- One token at one cell of the state. -/
def tokenColumn (cell : Fin layer.dims.numVHeads × Fin sV) (s : Fin sV → R)
    (token : X × (Nat → R)) : (Fin sV → R) × R :=
  stepColumn layer.weights.step (layer.stepShape 1)
    (layer.stepInputs [token.2] [layer.weights.ssmAlpha token.1] [layer.weights.ssmBeta token.1])
    0 cell s 0

/-- One token through the state and out of the layer. -/
def headStep (state : State layer.dims.numVHeads R) (token : X × (Nat → R)) :
    State layer.dims.numVHeads R × Y :=
  let after := cellwise layer.tokenColumn state token
  (after.1, layer.weights.ssmOut (layer.weights.attnGate token.1) after.2)

/-- A slot as the two machines' states. -/
def parts (s : GdnSlot layer.dims R) : List (Nat → R) × State layer.dims.numVHeads R :=
  (s.history, s.state)

/-- Decode is the conv and then the state. -/
theorem decode_parts (s : GdnSlot layer.dims R) (x : X) :
    cascade layer.convStep layer.headStep (layer.parts s) x =
      (layer.parts (layer.forwardDecode s x).1, (layer.forwardDecode s x).2) := rfl

omit [Zero R] [Add R] [Mul R] [Sub R] in
/-- The K heads a launch steps over are the layer's, and a V head reads one of them. -/
theorem kvHead_lt (h : Fin layer.dims.numVHeads) :
    let nRep := layer.dims.numVHeads / layer.dims.numKHeads
    layer.dims.numVHeads / nRep = layer.dims.numKHeads ∧
      (if layer.repInnerLayout then h.val / nRep
        else h.val % (layer.dims.numVHeads / nRep)) < layer.dims.numKHeads := by
  obtain ⟨n, hgroups⟩ := layer.groups
  have hlt := h.isLt
  have hpos : 0 < layer.dims.numKHeads * n := by omega
  have hk := Nat.pos_of_mul_pos_right hpos
  have hn := Nat.pos_of_mul_pos_left hpos
  have hrep : layer.dims.numVHeads / layer.dims.numKHeads = n := by
    rw [hgroups, Nat.mul_div_cancel_left _ hk]
  have hheads : layer.dims.numVHeads / n = layer.dims.numKHeads := by
    rw [hgroups, Nat.mul_div_cancel _ hn]
  dsimp only
  rw [hrep, hheads]
  refine ⟨rfl, ?_⟩
  split
  · apply Nat.div_lt_of_lt_mul
    rw [Nat.mul_comm, ← hgroups]
    exact hlt
  · exact Nat.mod_lt _ hk

/-- The row and the head of an index into rows of heads. -/
theorem flat_index (b l t : Nat) {n i : Nat} (h : i < n) :
    (b * (l * n) + (t * n + i)) / n = b * l + t ∧ (b * (l * n) + (t * n + i)) % n = i := by
  have hflat : b * (l * n) + (t * n + i) = i + n * (b * l + t) := by
    rw [Nat.mul_add, Nat.mul_comm n (b * l), Nat.mul_assoc, Nat.mul_comm n t]
    omega
  rw [hflat]
  constructor
  · rw [Nat.add_mul_div_left _ _ (by omega), Nat.div_eq_of_lt h, Nat.zero_add]
  · rw [Nat.add_mul_mod_self_left, Nat.mod_eq_of_lt h]

omit [Add R] [Mul R] [Sub R] in
/-- A head of a row is sliced out of that row alone. -/
theorem stepInputs_row (siluOut alpha beta : List (Nat → R)) (l b t : Nat)
    (hk : kvHead < layer.dims.numKHeads) (hv : h < layer.dims.numVHeads) :
    let all := layer.stepInputs siluOut alpha beta
    let one := layer.stepInputs [rowAt siluOut (b * l + t)] [rowAt alpha (b * l + t)]
      [rowAt beta (b * l + t)]
    let kRow := b * (l * layer.dims.numKHeads) + (t * layer.dims.numKHeads + kvHead)
    let vRow := b * (l * layer.dims.numVHeads) + (t * layer.dims.numVHeads + h)
    all.q kRow = one.q kvHead ∧ all.k kRow = one.k kvHead ∧ all.v vRow = one.v h ∧
      all.alphaIn vRow = one.alphaIn h ∧ all.betaIn vRow = one.betaIn h := by
  obtain ⟨hkRow, hkHead⟩ := flat_index b l t hk
  obtain ⟨hvRow, hvHead⟩ := flat_index b l t hv
  have hfirst : ∀ row : Nat → R, rowAt [row] 0 = row := fun _ => rfl
  unfold stepInputs
  dsimp only
  simp only [hkRow, hkHead, hvRow, hvHead, Nat.div_eq_of_lt hk, Nat.mod_eq_of_lt hk,
    Nat.div_eq_of_lt hv, Nat.mod_eq_of_lt hv, hfirst, and_self]

/-- A launch over several rows steps each row as a launch of its own would. -/
theorem stepColumn_row (siluOut alpha beta : List (Nat → R)) (l b t : Nat)
    (cell : Fin layer.dims.numVHeads × Fin sV) (s : Fin sV → R) :
    stepColumn layer.weights.step (layer.stepShape l) (layer.stepInputs siluOut alpha beta) b cell
        s t =
      stepColumn layer.weights.step (layer.stepShape 1)
        (layer.stepInputs [rowAt siluOut (b * l + t)] [rowAt alpha (b * l + t)]
          [rowAt beta (b * l + t)]) 0 cell s 0 := by
  obtain ⟨hheads, hkv⟩ := layer.kvHead_lt cell.1
  obtain ⟨hq, hk, hv, ha, hb⟩ :=
    layer.stepInputs_row siluOut alpha beta l b t hkv cell.1.isLt
  unfold stepColumn
  dsimp only at hq hk ⊢
  rw [hheads] at hq hk ⊢
  simp only [hq, hk, hv, ha, hb, Nat.zero_mul, Nat.zero_add]

omit [Sub R] in
/-- Token by token, the history slides along the conv input of the whole chunk. -/
theorem feed_convStep {history : List (Nat → R)} (hrows : history.length = layer.dims.convKernel - 1)
    (xs : List X) :
    feed layer.convStep history xs =
      (((history ++ xs.map layer.weights.attnQkv).drop xs.length).take (layer.dims.convKernel - 1),
        (List.range xs.length).map fun t c =>
          layer.weights.silu (convThread (history ++ xs.map layer.weights.attnQkv)
            layer.weights.ssmConv1d layer.dims.convKernel t c)) := by
  have hpos := layer.kernel_pos
  induction xs generalizing history with
  | nil =>
    simp [← hrows]
  | cons x xs ih =>
    have hinput : (history ++ [layer.weights.attnQkv x]).length = layer.dims.convKernel := by
      simp only [List.length_append, List.length_singleton]
      omega
    have hnext : (layer.convStep history x).1 = (history ++ [layer.weights.attnQkv x]).drop 1 := by
      apply List.take_of_length_le
      rw [List.length_drop]
      unfold assembleConvInput
      omega
    have hslid : (layer.convStep history x).1 ++ xs.map layer.weights.attnQkv =
        (history ++ (x :: xs).map layer.weights.attnQkv).drop 1 := by
      have hsplit : history ++ (x :: xs).map layer.weights.attnQkv =
          (history ++ [layer.weights.attnQkv x]) ++ xs.map layer.weights.attnQkv := by simp
      rw [hnext, hsplit]
      exact (List.drop_append_of_le_length (by omega)).symm
    have hfirst : (layer.convStep history x).2 = fun c =>
        layer.weights.silu (convThread (history ++ (x :: xs).map layer.weights.attnQkv)
          layer.weights.ssmConv1d layer.dims.convKernel 0 c) := by
      have hsplit : history ++ (x :: xs).map layer.weights.attnQkv =
          (history ++ [layer.weights.attnQkv x]) ++ xs.map layer.weights.attnQkv := by simp
      rw [hsplit, convThread_append (by omega)]
      rfl
    rw [feed_cons, ih (by rw [hnext, List.length_drop]; omega), hslid, hfirst]
    refine Prod.ext ?_ ?_
    · rw [List.drop_drop, List.length_cons, Nat.add_comm 1]
    · rw [List.length_cons, List.range_succ_eq_map, List.map_cons]
      dsimp only
      congr 1
      rw [List.map_map]
      apply List.map_congr_left
      intro t _
      rw [convThread_drop, Nat.add_comm 1]
      rfl

theorem feed_headStep (state : State layer.dims.numVHeads R) (tokens : List (X × (Nat → R))) :
    feed layer.headStep state tokens =
      ((feed (cellwise layer.tokenColumn) state tokens).1,
        List.zipWith (fun token attn => layer.weights.ssmOut (layer.weights.attnGate token.1) attn)
          tokens (feed (cellwise layer.tokenColumn) state tokens).2) :=
  feed_out (cellwise layer.tokenColumn)
    (fun token attn => layer.weights.ssmOut (layer.weights.attnGate token.1) attn) state tokens

/-- The token loop of a launch is the state's own, one token at a time. -/
theorem stepBatch_eq (state : State layer.dims.numVHeads R) (tokens : List (X × (Nat → R))) :
    let after := gdnStateStep layer.weights.step (layer.stepShape tokens.length)
      (layer.stepInputs (tokens.map Prod.snd)
        (tokens.map fun token => layer.weights.ssmAlpha token.1)
        (tokens.map fun token => layer.weights.ssmBeta token.1)) state
    let fed := feed (cellwise layer.tokenColumn) state tokens
    after.1 = fed.1 ∧ ∀ t, (ht : t < fed.2.length) → after.2 t = fed.2.get ⟨t, ht⟩ := by
  have hcolumn : ∀ cell, feed (stepColumn layer.weights.step (layer.stepShape tokens.length)
        (layer.stepInputs (tokens.map Prod.snd)
          (tokens.map fun token => layer.weights.ssmAlpha token.1)
          (tokens.map fun token => layer.weights.ssmBeta token.1)) 0 cell)
        (state cell) (List.range tokens.length) =
      feed (layer.tokenColumn cell) (state cell) tokens := by
    intro (cell : Fin layer.dims.numVHeads × Fin sV)
    apply feed_range
    intro s t ht
    rw [layer.stepColumn_row, Nat.zero_mul, Nat.zero_add]
    unfold tokenColumn rowAt
    simp only [List.getElem?_map, List.getElem?_eq_getElem ht, Option.map_some, Option.getD_some,
      List.get_eq_getElem]
  have hcells := feed_cellwise layer.tokenColumn state tokens
  constructor
  · funext cell
    rw [(hcells cell).1, ← hcolumn cell]
    rfl
  · intro t ht
    funext cell
    have hout := congrArg (fun outs : List R => outs[t]?) (hcells cell).2
    rw [List.getElem?_map, List.getElem?_eq_getElem ht, Option.map_some, ← hcolumn cell] at hout
    show ((feed _ (state cell) (List.range tokens.length)).2)[t]?.getD 0 = _
    rw [← hout]
    rfl

/-- Prefill is its tokens one at a time, however short the chunk. -/
theorem forwardPrefill_eq (s : GdnSlot layer.dims R) (xs : List X) :
    layer.forwardPrefill s xs = feed layer.forwardDecode s xs := by
  let convInput := assembleConvInput s.history (xs.map layer.weights.attnQkv)
  let siluOut := (causalConv1d convInput layer.weights.ssmConv1d xs.length
    layer.dims.convKernel).map fun row c => layer.weights.silu (row c)
  have hconv : feed layer.convStep s.history xs =
      ((convInput.drop xs.length).take (layer.dims.convKernel - 1), siluOut) := by
    rw [layer.feed_convStep s.rows]
    unfold siluOut causalConv1d
    rw [List.map_map]
    rfl
  have hsilu : siluOut.length = xs.length := by simp [siluOut, causalConv1d]
  have hlen : (xs.zip siluOut).length = xs.length := by simp [hsilu]
  have hfst : (xs.zip siluOut).map Prod.fst = xs := List.map_fst_zip (by omega)
  have hsnd : (xs.zip siluOut).map Prod.snd = siluOut := List.map_snd_zip (by omega)
  have hrows : ∀ f : X → Nat → R, (xs.zip siluOut).map (fun token => f token.1) = xs.map f := by
    intro f
    rw [← hfst, List.map_map, hfst]
    rfl
  obtain ⟨hstate, hattn⟩ := layer.stepBatch_eq s.state (xs.zip siluOut)
  rw [hlen, hsnd, hrows, hrows] at hstate hattn
  have hview := feed_view layer.decode_parts s xs
  rw [feed_cascade] at hview
  unfold parts at hview
  dsimp only at hview
  rw [hconv, layer.feed_headStep] at hview
  obtain ⟨hparts, houts⟩ := Prod.mk.inj hview
  refine Prod.ext (GdnSlot.ext ?_ ?_) ?_
  · exact hstate.trans (congrArg Prod.snd hparts)
  · exact congrArg Prod.fst hparts
  · rw [← houts]
    apply List.ext_getElem
    · simp [forwardPrefill, hsilu]
    · intro t ht _
      have hxs : t < xs.length := by simpa [forwardPrefill] using ht
      have hfed : t < (feed (cellwise layer.tokenColumn) s.state (xs.zip siluOut)).2.length := by
        rw [feed_length, hlen]
        exact hxs
      rw [List.getElem_zipWith, List.getElem_zip]
      have hattn := hattn t hfed
      unfold siluOut convInput at hattn
      exact (List.getElem_mapIdx ..).trans (congrArg _ hattn)

/-- A one-token launch at its `b`-th row. -/
theorem stepBatch_row (siluOut alpha beta : List (Nat → R)) (b : Nat)
    (state : State layer.dims.numVHeads R) :
    gdnStateStepBatchedSlots layer.weights.step (layer.stepShape 1)
        (layer.stepInputs siluOut alpha beta) b state =
      gdnStateStep layer.weights.step (layer.stepShape 1)
        (layer.stepInputs [rowAt siluOut b] [rowAt alpha b] [rowAt beta b]) state := by
  have hcolumn : ∀ cell, feed (stepColumn layer.weights.step (layer.stepShape 1)
        (layer.stepInputs siluOut alpha beta) b cell) (state cell) (List.range 1) =
      feed (stepColumn layer.weights.step (layer.stepShape 1)
        (layer.stepInputs [rowAt siluOut b] [rowAt alpha b] [rowAt beta b]) 0 cell)
        (state cell) (List.range 1) := by
    intro (cell : Fin layer.dims.numVHeads × Fin sV)
    apply feed_congr
    intro s t ht
    obtain rfl : t = 0 := by simpa using ht
    rw [layer.stepColumn_row, Nat.mul_one, Nat.add_zero]
  unfold gdnStateStepBatchedSlots gdnStateStep stepBatch
  simp only [hcolumn]

/-- The batched kernels give each row what a decode of its own would. -/
theorem forwardDecodeBatchedSlots_eq (hkernel : layer.dims.convKernel ≤ convTrioKernelMax)
    (slots : Nat → GdnSlot layer.dims R) (tokens : List (Nat × X)) :
    layer.forwardDecodeBatchedSlots slots tokens = together layer.forwardDecode slots tokens := by
  let w := layer.weights
  let conv := fun token : Nat × X =>
    convTrioDecode (slots token.1).history (w.attnQkv token.2) w.ssmConv1d layer.dims.convKernel
  let siluOut := tokens.map fun token c => w.silu ((conv token).1 c)
  let alpha := tokens.map fun token => w.ssmAlpha token.2
  let beta := tokens.map fun token => w.ssmBeta token.2
  have hconv : ∀ token : Nat × X, conv token =
      (convThread ((slots token.1).history ++ [w.attnQkv token.2]) w.ssmConv1d
          layer.dims.convKernel 0,
        (((slots token.1).history ++ [w.attnQkv token.2]).drop 1).take
          (layer.dims.convKernel - 1)) := by
    intro token
    exact convTrioDecode_eq _ _ (slots token.1).rows layer.kernel_pos hkernel
  have hstep : ∀ i (token : Nat × X), tokens[i]? = some token →
      gdnStateStepBatchedSlots w.step (layer.stepShape 1)
          (layer.stepInputs siluOut alpha beta) i (slots token.1).state =
        gdnStateStep w.step (layer.stepShape 1)
          (layer.stepInputs [fun c => w.silu ((conv token).1 c)] [w.ssmAlpha token.2]
            [w.ssmBeta token.2]) (slots token.1).state := by
    intro i token hget
    rw [layer.stepBatch_row]
    unfold rowAt siluOut alpha beta
    simp only [List.getElem?_map, hget, Option.map_some, Option.getD_some]
    rfl
  have hstate : ∀ token : Nat × X,
      (gdnStateStep w.step (layer.stepShape 1)
          (layer.stepInputs [fun c => w.silu ((conv token).1 c)] [w.ssmAlpha token.2]
            [w.ssmBeta token.2]) (slots token.1).state).1 =
        (layer.forwardDecode (slots token.1) token.2).1.state := by
    intro token
    rw [hconv]
    rfl
  have hout : ∀ token : Nat × X,
      w.ssmOut (w.attnGate token.2)
          ((gdnStateStep w.step (layer.stepShape 1)
            (layer.stepInputs [fun c => w.silu ((conv token).1 c)] [w.ssmAlpha token.2]
              [w.ssmBeta token.2]) (slots token.1).state).2 0) =
        (layer.forwardDecode (slots token.1) token.2).2 := by
    intro token
    rw [hconv]
    rfl
  refine Prod.ext ?_ ?_
  · have hzip : ∀ (f : (Nat → GdnSlot layer.dims R) → Nat × X → (Nat → GdnSlot layer.dims R)),
        tokens.zipIdx.foldl (fun after r => f after r.1) slots = tokens.foldl f slots := by
      intro f
      rw [← List.foldl_map, List.zipIdx_map_fst]
    unfold together
    dsimp only
    rw [← hzip]
    unfold forwardDecodeBatchedSlots
    dsimp only
    apply List.foldl_rel
    · rfl
    · intro r hr after after' heq
      have hget : tokens[r.2]? = some r.1 := List.mem_zipIdx_iff_getElem?.mp hr
      rw [heq]
      congr 1
      apply GdnSlot.ext
      · exact (congrArg Prod.fst (hstep r.2 r.1 hget)).trans (hstate r.1)
      · exact congrArg Prod.snd (hconv r.1)
  · apply List.ext_getElem
    · simp [forwardDecodeBatchedSlots, together]
    · intro i hi hi'
      have hlt : i < tokens.length := by simpa [forwardDecodeBatchedSlots] using hi
      have hget : tokens[i]? = some tokens[i] := List.getElem?_eq_getElem hlt
      have hout := hout tokens[i]
      rw [← hstep i tokens[i] hget] at hout
      unfold siluOut alpha beta at hout
      have hright : (together layer.forwardDecode slots tokens).2[i] =
          (layer.forwardDecode (slots tokens[i].1) tokens[i].2).2 := List.getElem_map ..
      rw [hright, ← hout]
      exact List.getElem_mapIdx ..

/-- A batch is of one slot, or of slots of their own. -/
def Batch (tokens : List (Nat × X)) : Prop :=
  (∃ slot, ∀ token ∈ tokens, token.1 = slot) ∨ (tokens.map Prod.fst).Nodup

/-- The batches that `gdn_layer_local` takes. -/
def takes (tokens : List (Nat × X)) : Bool :=
  !tokens.isEmpty && (tokens.all fun token => token.1 < layer.config.nSlots) &&
    (!prefillShape tokens ||
      decide (1 < layer.config.maxPrefillTokens ∧ tokens.length ≤ layer.config.maxPrefillTokens))

omit [Zero R] [Add R] [Mul R] [Sub R] in
theorem one_of_prefillShape {tokens : List (Nat × X)} (h : prefillShape ((slot, x) :: tokens) = true) :
    ∀ token ∈ (slot, x) :: tokens, token.1 = slot := by
  unfold prefillShape at h
  simp only [Bool.and_eq_true, List.all_eq_true, List.head?_cons, Option.map_some,
    beq_iff_eq, Option.some.injEq] at h
  exact h.2

omit [Zero R] [Add R] [Mul R] [Sub R] in
/-- A batch that is no chunk has slots of its own. -/
theorem apart_of_batch {tokens : List (Nat × X)} (hbatch : Batch tokens)
    (h : prefillShape tokens = false) : (tokens.map Prod.fst).Nodup := by
  rcases hbatch with ⟨slot, hslot⟩ | hslots
  · have hshort : tokens.length ≤ 1 := by
      apply Nat.le_of_not_lt
      intro hmany
      unfold prefillShape at h
      rw [decide_eq_true hmany, Bool.true_and] at h
      apply Bool.false_ne_true
      rw [← h]
      apply List.all_eq_true.mpr
      intro token hmem
      cases tokens with
      | nil => cases hmem
      | cons first rest =>
        simp [hslot token hmem, hslot first List.mem_cons_self]
    match tokens, hshort with
    | [], _ => exact List.nodup_nil
    | [token], _ => simp
  · exact hslots

/-- Slots of their own are at most as many as the pool has. -/
theorem length_le_slots {tokens : List (Nat × X)} (hslots : (tokens.map Prod.fst).Nodup)
    (hvalid : ∀ token ∈ tokens, token.1 < n) : tokens.length ≤ n := by
  have hsubset : tokens.map Prod.fst ⊆ List.range n := by
    intro slot hslot
    obtain ⟨token, hmem, rfl⟩ := List.mem_map.mp hslot
    exact List.mem_range.mpr (hvalid token hmem)
  have hle := hslots.length_le_of_subset hsubset
  simpa using hle

/-- A call is its tokens one at a time. -/
theorem gdnLayerLocal_eq (hkernel : layer.dims.convKernel ≤ convTrioKernelMax) (fused : Bool)
    (slots : Nat → GdnSlot layer.dims R) {tokens : List (Nat × X)} (hbatch : Batch tokens) :
    layer.gdnLayerLocal fused slots tokens =
      if layer.takes tokens then some (feed (atLane layer.forwardDecode) slots tokens) else none := by
  cases tokens with
  | nil => rfl
  | cons first rest =>
    obtain ⟨slot, x⟩ := first
    unfold gdnLayerLocal takes
    dsimp only
    cases hvalid : ((slot, x) :: rest).all fun token => decide (token.1 < layer.config.nSlots) with
    | false => simp
    | true =>
      cases hshape : prefillShape ((slot, x) :: rest) with
      | true =>
        have hone := feed_oneLane layer.forwardDecode slots (one_of_prefillShape hshape)
        rw [hone, layer.forwardPrefill_eq]
        simp
      | false =>
        have hslots := apart_of_batch hbatch hshape
        have hcount : ((slot, x) :: rest).length ≤ layer.config.nSlots :=
          length_le_slots hslots fun token hmem => of_decide_eq_true (List.all_eq_true.mp hvalid token hmem)
        by_cases hfused : rest.length + 1 = 1 ∧ fused = true
        · obtain rfl := List.length_eq_zero_iff.mp (Nat.succ.inj hfused.1)
          simp [hfused.2, feed_cons, atLane]
        · have hbatched := layer.forwardDecodeBatchedSlots_eq hkernel slots ((slot, x) :: rest)
          rw [together_eq layer.forwardDecode slots hslots] at hbatched
          rw [List.length_cons] at hcount
          rw [Bool.not_true, if_neg Bool.false_ne_true, if_neg Bool.false_ne_true, if_neg hfused,
            hbatched]
          simp [hcount, hkernel]

/-- Calls in order, to the first that returns an error; the results are one for each
row. -/
def runCalls (fused : Bool) (slots : Nat → GdnSlot layer.dims R) :
    List (List (Nat × X)) → Option ((Nat → GdnSlot layer.dims R) × List Y)
  | [] => some (slots, [])
  | call :: calls =>
    (layer.gdnLayerLocal fused slots call).bind fun after =>
      (runCalls fused after.1 calls).map fun rest => (rest.1, after.2 ++ rest.2)

/-- Calls are the tokens of their batches one at a time. -/
theorem runCalls_eq (hkernel : layer.dims.convKernel ≤ convTrioKernelMax) (fused : Bool)
    (slots : Nat → GdnSlot layer.dims R) {calls : List (List (Nat × X))}
    (hcalls : ∀ call ∈ calls, Batch call) :
    layer.runCalls fused slots calls =
      if calls.all layer.takes then some (feed (atLane layer.forwardDecode) slots calls.flatten)
      else none := by
  induction calls generalizing slots with
  | nil => rfl
  | cons call calls ih =>
    have hrest := fun slots => ih slots fun other hother => hcalls other (List.mem_cons_of_mem _ hother)
    unfold runCalls
    rw [layer.gdnLayerLocal_eq hkernel fused slots (hcalls call List.mem_cons_self),
      List.all_cons, List.flatten_cons, feed_append]
    cases layer.takes call with
    | false => rfl
    | true =>
      simp only [if_true, Option.bind_some, Bool.true_and, hrest]
      cases calls.all layer.takes <;> rfl

end GdnLayer

/-- One head, a conv over four rows. -/
def oneHeadDims : GdnDims := ⟨128, 1, 1, 128, 128, 384, 4⟩

def oneHeadGdn : GdnLayer Int Int Int Int where
  config :=
    { hidden := 64, intermediate := 64, qWidth := 64, kvWidth := 64, vocab := 8, maxSeqLen := 16
      numLayers := 1, maxExperts := 0, maxExpertsPerTok := 0, gdn := some oneHeadDims
      perLayerKvWidths := none, attnQGated := false, sharedIntermediate := 0
      maxPrefillTokens := 2, maxSlots := 2, perLayerEmbd := 0, pagedKv := none
      kvLayout := .f16Contig, perLayerKvLayouts := none, perLayerKvDepths := none }
  dims := oneHeadDims
  weights :=
    { attnQkv := fun x c => x + c, attnGate := fun x => x, ssmAlpha := fun x _ => x
      ssmBeta := fun x _ => x, ssmConv1d := fun _ k => k, silu := fun y => y
      l2Norm := fun head => head, qScale := fun y => y
      step := ⟨fun _ => 0, fun _ => 1, fun y => y, fun _ => 1, fun _ => 1⟩
      ssmOut := fun z attn => z * attn (⟨0, Nat.zero_lt_one⟩, 0) }
  repInnerLayout := false
  pooled := rfl
  builds := rfl
  groups := ⟨1, rfl⟩
  kernel_pos := by decide

def zeroSlot : GdnSlot oneHeadDims Int := ⟨fun _ _ => 0, [fun _ => 0, fun _ => 0, fun _ => 0], rfl⟩

end Flambeau.Forward.Gdn
