import Flambeau.Runtime.CollectiveMesh

namespace Flambeau.Runtime.Collective
open Flambeau.Systems

variable {n : Nat} {F : Floats} {calls : List Call} {inputs : Fin n → Nat → Buffers}

/-- The ranks' configurations match: all of them pass the checks of a call, or none does. -/
def Matching (calls : List Call) (inputs : Fin n → Nat → Buffers) : Prop :=
  ∀ k c, calls[k]? = some c →
    (∀ r, check n c (inputs r k) = .ok ()) ∨ ∀ r, ∃ e, check n c (inputs r k) = .error e

/-- The call passes its checks. -/
def Passes (calls : List Call) (inputs : Fin n → Nat → Buffers) (k : Nat) : Prop :=
  ∃ c, calls[k]? = some c ∧ ∀ r, check n c (inputs r k) = .ok ()

open Classical in
/-- The barriers in front of a call. -/
noncomputable def before (calls : List Call) (inputs : Fin n → Nat → Buffers) : Nat → Nat
  | 0 => 0
  | k + 1 => before calls inputs k + if Passes calls inputs k then 2 else 0

theorem before_even (k : Nat) : before calls inputs k % 2 = 0 := by
  induction k with
  | zero => rfl
  | succ k ih =>
    rw [before]
    split <;> omega

theorem before_passes (h : Passes calls inputs k) : before calls inputs (k + 1) = before calls inputs k + 2 := by
  rw [before, if_pos h]

theorem before_fails (h : ¬ Passes calls inputs k) : before calls inputs (k + 1) = before calls inputs k := by
  rw [before, if_neg h, Nat.add_zero]

theorem before_mono (h : k ≤ k') : before calls inputs k ≤ before calls inputs k' := by
  induction h with
  | refl => exact Nat.le_refl _
  | step _ ih =>
    refine Nat.le_trans ih ?_
    rw [before]
    exact Nat.le_add_right _ _

/-- The barriers tell the call. -/
theorem before_inj (h : Passes calls inputs k) (h' : Passes calls inputs k')
    (heq : before calls inputs k = before calls inputs k') : k = k' := by
  rcases Nat.lt_trichotomy k k' with hlt | heq' | hlt
  · have hle := @before_mono _ calls inputs _ _ hlt
    rw [before_passes h] at hle
    omega
  · exact heq'
  · have hle := @before_mono _ calls inputs _ _ hlt
    rw [before_passes h'] at hle
    omega

/-- The ranks' inputs of a call. -/
def sends (inputs : Fin n → Nat → Buffers) (k : Nat) : List Bytes := List.ofFn fun r => (inputs r k).send

/-- What the buffer holds behind the work between the barriers. -/
def Filled (F : Floats) (inputs : Fin n → Nat → Buffers) (c : Call) (k : Nat) (r : Fin n) (buf : Bytes) : Prop :=
  if c.op = .allReduce then buf = output c (inputs r k) else defined F c (fun q => inputs q k) r = .ok buf

/-- What holds at each point of a call. -/
def PcOk (F : Floats) (inputs : Fin n → Nat → Buffers) (c : Call) (k base generation : Nat) (slot : Bytes) (r : Fin n)
    (buf : Bytes) : Pc → Prop
  | .entry | .panicked => False
  | .deposit g =>
    generation = base ∧ buf = output c (inputs r k) ∧ c.op.deposits r = true ∧
      (match g with
        | .done => slot = (inputs r k).send
        | _ => True)
  | .arrive false =>
    generation = base ∧ buf = output c (inputs r k) ∧ (c.op.deposits r = true → slot = (inputs r k).send)
  | .wait false g =>
    g = base ∧ buf = output c (inputs r k) ∧
      (generation = base ∧ (c.op.deposits r = true → slot = (inputs r k).send) ∨ generation = base + 1)
  | .middle g =>
    generation = base + 1 ∧ c.op.works r = true ∧
      (match g with
        | .done => Filled F inputs c k r buf
        | _ => buf = output c (inputs r k))
  | .arrive true => generation = base + 1 ∧ Filled F inputs c k r buf
  | .wait true g =>
    g = base + 1 ∧ Filled F inputs c k r buf ∧
      (generation = base + 1 ∨
        generation = base + 2 ∧ (c.op = .allReduce → slot = reduced F c.cfg (sends inputs k)))
  | .last g =>
    c.op = .allReduce ∧ generation = base + 2 ∧ slot = reduced F c.cfg (sends inputs k) ∧
      (match g with
        | .done => buf = reduced F c.cfg (sends inputs k)
        | _ => buf = output c (inputs r k))

/-- A rank is between two calls, or in one that passes its checks. -/
def RankOk (F : Floats) (calls : List Call) (inputs : Fin n → Nat → Buffers) (generation : Nat) (slot : Bytes) (r : Fin n)
    (rank : Rank) : Prop :=
  rank.pc = .entry ∧ generation = before calls inputs rank.results.length ∨
    ∃ c, calls[rank.results.length]? = some c ∧ Passes calls inputs rank.results.length ∧
      PcOk F inputs c rank.results.length (before calls inputs rank.results.length) generation slot r rank.buf rank.pc

/-- Behind the work between the barriers. -/
def Pc.behindMiddle : Pc → Bool
  | .middle .done | .arrive true | .wait true _ => true
  | _ => false

/-- Rank 0 has reduced the slots. -/
def Reduced (ranks : Fin n → Rank) : Prop := ∃ z : Fin n, z.val = 0 ∧ (ranks z).pc.behindMiddle = true

/-- The slots between the barriers of a call. -/
def SlotsOk (F : Floats) (inputs : Fin n → Nat → Buffers) (c : Call) (k : Nat) (slots : Fin n → Bytes)
    (ranks : Fin n → Rank) : Prop :=
  (c.op = .allReduce → Reduced ranks → ∀ q, slots q = reduced F c.cfg (sends inputs k)) ∧
    (¬ (c.op = .allReduce ∧ Reduced ranks) → ∀ q : Fin n, c.op.deposits q = true → slots q = (inputs q k).send)

def Pc.holds : Pc → Bool
  | .deposit .held | .deposit .done | .middle .held | .middle .done | .last .held | .last .done => true
  | _ => false

def Pc.waiting : Pc → Option Nat
  | .wait _ g => some g
  | _ => none

structure Inv (F : Floats) (calls : List Call) (inputs : Fin n → Nat → Buffers) (s : State n) : Prop where
  guards : Guards (fun rank : Rank => rank.pc.holds) s.lock s.ranks
  sound : s.poisoned = false
  counts : s.barrier.Counts fun r => (s.ranks r).pc.waiting
  ranks : ∀ r, RankOk F calls inputs s.barrier.generation (s.slots r) r (s.ranks r)
  between : ∀ k c, calls[k]? = some c → Passes calls inputs k →
    s.barrier.generation = before calls inputs k + 1 → SlotsOk F inputs c k s.slots s.ranks
  results : ∀ r k o, (s.ranks r).results[k]? = some o →
    ∃ c, calls[k]? = some c ∧ o = defined F c (fun q => inputs q k) r

/-! What other ranks do. -/

section
variable {G : Nat} {old new : Bytes} {r : Fin n} {rank : Rank}

/-- Between the barriers no rank relies on its slot alone. -/
theorem RankOk.between (h : RankOk F calls inputs G old r rank) (hodd : G % 2 = 1) : RankOk F calls inputs G new r rank := by
  have heven := @before_even _ calls inputs rank.results.length
  rcases h with ⟨hpc, hG⟩ | ⟨c, hc, hpass, hok⟩
  · exact .inl ⟨hpc, hG⟩
  refine .inr ⟨c, hc, hpass, ?_⟩
  cases hpc : rank.pc with
  | entry | panicked =>
    rw [hpc] at hok
    exact hok
  | deposit g =>
    rw [hpc] at hok
    have hG := hok.1
    omega
  | arrive second =>
    rw [hpc] at hok
    cases second with
    | false =>
      have hG := hok.1
      omega
    | true => exact hok
  | wait second g =>
    rw [hpc] at hok
    cases second with
    | false =>
      obtain ⟨hg, hbuf, ⟨hG, -⟩ | hG⟩ := hok
      · omega
      · exact ⟨hg, hbuf, .inr hG⟩
    | true =>
      obtain ⟨hg, hbuf, hG | ⟨hG, -⟩⟩ := hok
      · exact ⟨hg, hbuf, .inl hG⟩
      · omega
  | middle g =>
    rw [hpc] at hok
    exact hok
  | last g =>
    rw [hpc] at hok
    have hG := hok.2.1
    omega

/-- The barrier opens for a rank that waits. -/
theorem RankOk.opens (h : RankOk F calls inputs G old r rank) (hw : rank.pc.waiting = some G)
    (hred : ∀ c, calls[rank.results.length]? = some c → Passes calls inputs rank.results.length →
      G = before calls inputs rank.results.length + 1 → c.op = .allReduce →
        old = reduced F c.cfg (sends inputs rank.results.length)) :
    RankOk F calls inputs (G + 1) old r rank := by
  rcases h with ⟨hpc, -⟩ | ⟨c, hc, hpass, hok⟩
  · rw [hpc] at hw
    cases hw
  refine .inr ⟨c, hc, hpass, ?_⟩
  cases hpc : rank.pc with
  | wait second g =>
    rw [hpc] at hok hw
    cases hw
    cases second with
    | false =>
      obtain ⟨rfl, hbuf, -⟩ := hok
      exact ⟨rfl, hbuf, .inr rfl⟩
    | true =>
      obtain ⟨hg, hbuf, -⟩ := hok
      exact ⟨hg, hbuf, .inr ⟨by omega, hred c hc hpass hg⟩⟩
  | entry | panicked | deposit | arrive | middle | last =>
    rw [hpc] at hw
    cases hw

/-- Between the barriers every rank is in the same call. -/
theorem RankOk.same (h : RankOk F calls inputs G old r rank) (hpass : Passes calls inputs k)
    (hG : G = before calls inputs k + 1) : rank.results.length = k := by
  have heven := @before_even _ calls inputs k
  have heven' := @before_even _ calls inputs rank.results.length
  rcases h with ⟨-, hG'⟩ | ⟨c, hc, hpass', hok⟩
  · omega
  refine before_inj hpass' hpass ?_
  cases hpc : rank.pc with
  | entry | panicked =>
    rw [hpc] at hok
    exact hok.elim
  | deposit g =>
    rw [hpc] at hok
    have hG' := hok.1
    omega
  | arrive second =>
    rw [hpc] at hok
    cases second with
    | false =>
      have hG' := hok.1
      omega
    | true =>
      have hG' := hok.1
      omega
  | wait second g =>
    rw [hpc] at hok
    cases second with
    | false =>
      obtain ⟨-, -, ⟨hG', -⟩ | hG'⟩ := hok
      · omega
      · omega
    | true =>
      obtain ⟨-, -, hG' | ⟨hG', -⟩⟩ := hok
      · omega
      · omega
  | middle g =>
    rw [hpc] at hok
    have hG' := hok.1
    omega
  | last g =>
    rw [hpc] at hok
    have hG' := hok.2.1
    omega

end

/-! What the work between the barriers gives. -/

theorem checkBuf_ok {buf : Bytes} (h : checkBuf buf cfg e x = .ok ()) : buf.length = x := by
  unfold checkBuf at h
  split at h
  · assumption
  · cases h

theorem check_send (h : check n c b = .ok ()) (hop : c.op ≠ .allToAll) : b.send.length = c.cfg.bufferBytes := by
  unfold check at h
  cases ho : c.op with
  | allReduce =>
    rw [ho] at h
    exact checkBuf_ok h
  | allGather =>
    rw [ho] at h
    dsimp only at h
    cases hs : checkBuf b.send c.cfg c.cfg.elemCount c.cfg.bufferBytes with
    | ok => exact checkBuf_ok hs
    | error e =>
      rw [hs] at h
      cases h
  | allToAll => exact absurd ho hop
  | broadcast root =>
    rw [ho] at h
    dsimp only at h
    split at h
    · cases h
    · exact checkBuf_ok h

theorem sends_get (inputs : Fin n → Nat → Buffers) (k : Nat) (q : Fin n) : (sends inputs k)[q.val]? = some (inputs q k).send := by
  rw [sends, List.getElem?_ofFn, dif_pos q.isLt]

theorem ofFn_eq_sends {slots : Fin n → Bytes} (h : ∀ q, slots q = (inputs q k).send) : List.ofFn slots = sends inputs k :=
  congrArg List.ofFn (funext h)

theorem sends_mem (h : b ∈ sends inputs k) : ∃ q : Fin n, b = (inputs q k).send := by
  obtain ⟨q, rfl⟩ := List.mem_ofFn.mp h
  exact ⟨q, rfl⟩

/-- The shards of an all-to-all. -/
theorem shards_eq {shard me : Nat} {bs : List Bytes} (h : ∀ b ∈ bs, (me + 1) * shard ≤ b.length) :
    ∀ (i : Nat) (x : Bytes), (bs.map fun b => (b.drop (me * shard)).take shard)[i]? = some x →
      (bs[i]?.bind fun b => sliceBytes b (me * shard) ((me + 1) * shard)) = some x := by
  intro i x hx
  rw [List.getElem?_map] at hx
  obtain ⟨b, hb, rfl⟩ := Option.map_eq_some_iff.mp hx
  have hle := h b (List.mem_of_getElem? hb)
  have hwidth : (me + 1) * shard - me * shard = shard := by
    rw [Nat.succ_mul]
    omega
  rw [hb, Option.bind_some, sliceBytes, if_pos ⟨by rw [Nat.succ_mul]; omega, hle⟩, hwidth]

theorem check_toAll (h : check n c b = .ok ()) (hop : c.op = .allToAll) :
    b.send.length = c.cfg.bufferBytes * n ∧ b.recv.length = c.cfg.bufferBytes * n := by
  unfold check at h
  rw [hop] at h
  dsimp only at h
  cases hs : checkBuf b.send c.cfg (c.cfg.elemCount * n) (c.cfg.bufferBytes * n) with
  | ok =>
    rw [hs] at h
    exact ⟨checkBuf_ok hs, checkBuf_ok h⟩
  | error e =>
    rw [hs] at h
    cases h

theorem check_gather (h : check n c b = .ok ()) (hop : c.op = .allGather) : b.recv.length = c.cfg.bufferBytes * n := by
  unfold check at h
  rw [hop] at h
  dsimp only at h
  cases hs : checkBuf b.send c.cfg c.cfg.elemCount c.cfg.bufferBytes with
  | ok =>
    rw [hs] at h
    exact checkBuf_ok h
  | error e =>
    rw [hs] at h
    cases h

theorem check_root (h : check n c b = .ok ()) (hop : c.op = .broadcast root) : root < n := by
  unfold check at h
  rw [hop] at h
  dsimp only at h
  split at h
  · cases h
  · omega

/-- The collectives that rank 0 does not do for all. -/
theorem middle_fills {c : Call} {r : Fin n} {slots : Fin n → Bytes} (hcheck : ∀ q, check n c (inputs q k) = .ok ())
    (hop : c.op ≠ .allReduce) (hslots : ∀ q : Fin n, c.op.deposits q = true → slots q = (inputs q k).send) :
    ∃ buf, middle F n c r (List.ofFn slots) (output c (inputs r k)) = some (List.ofFn slots, buf) ∧
      defined F c (fun q => inputs q k) r = .ok buf := by
  have hmine := hcheck r
  unfold middle defined output
  rw [hmine]
  cases ho : c.op with
  | allReduce => exact absurd ho hop
  | allGather =>
    have hall : List.ofFn slots = sends inputs k := ofFn_eq_sends fun q => hslots q (by rw [ho]; rfl)
    have hlen : (sends inputs k).length = n := List.length_ofFn
    have hcopy := @copyShards_eq c.cfg.bufferBytes (fun r => (sends inputs k)[r]?) (sends inputs k) (inputs r k).recv
      (by rw [hlen]; exact check_gather hmine ho) (fun i x hx => hx) (by
        intro b hb
        obtain ⟨q, rfl⟩ := sends_mem hb
        exact check_send (hcheck q) (by rw [ho]; intro h; cases h))
    rw [hlen] at hcopy
    refine ⟨(sends inputs k).flatten, ?_, rfl⟩
    dsimp only
    rw [hall, hcopy]
    rfl
  | allToAll =>
    have hall : List.ofFn slots = sends inputs k := ofFn_eq_sends fun q => hslots q (by rw [ho]; rfl)
    have hlen : (sends inputs k).length = n := List.length_ofFn
    have hwide : ∀ b ∈ sends inputs k, (r.val + 1) * c.cfg.bufferBytes ≤ b.length := by
      intro b hb
      obtain ⟨q, rfl⟩ := sends_mem hb
      rw [(check_toAll (hcheck q) ho).1, Nat.mul_comm]
      exact Nat.mul_le_mul_left _ r.isLt
    have hcopy := @copyShards_eq c.cfg.bufferBytes _
      ((sends inputs k).map fun b => (b.drop (r.val * c.cfg.bufferBytes)).take c.cfg.bufferBytes) (inputs r k).recv
      (by rw [List.length_map, hlen]; exact (check_toAll hmine ho).2) (shards_eq hwide) (by
        intro x hx
        obtain ⟨b, hb, rfl⟩ := List.mem_map.mp hx
        have hle := hwide b hb
        rw [Nat.succ_mul] at hle
        rw [List.length_take, List.length_drop]
        omega)
    rw [List.length_map, hlen] at hcopy
    refine ⟨shardsFor c.cfg.bufferBytes r (sends inputs k), ?_, rfl⟩
    dsimp only
    rw [hall, hcopy]
    rfl
  | broadcast root =>
    have hroot := check_root hmine ho
    have hslot : (List.ofFn slots)[root]? = some (inputs ⟨root, hroot⟩ k).send := by
      rw [List.getElem?_ofFn, dif_pos hroot, hslots ⟨root, hroot⟩ (by rw [ho]; exact decide_eq_true rfl)]
    have hsend : (List.ofFn fun q => (inputs q k).send)[root]? = some (inputs ⟨root, hroot⟩ k).send :=
      sends_get inputs k ⟨root, hroot⟩
    refine ⟨(inputs ⟨root, hroot⟩ k).send, ?_, ?_⟩
    · dsimp only
      rw [hslot, Option.bind_some, copyFromSlice, if_pos ?_]
      · rfl
      · rw [check_send hmine (by rw [ho]; intro h; cases h), check_send (hcheck ⟨root, hroot⟩) (by rw [ho]; intro h; cases h)]
    · dsimp only
      rw [hsend]
      rfl

end Flambeau.Runtime.Collective
