import Mathlib

namespace Flambeau.Systems
open Function (update)

/-- What buffers hold, at every offset. -/
abbrev Memory (B α : Type) := B → Nat → α

namespace Memory

variable {B α : Type} [DecidableEq B] (m : Memory B α) (b : B) (off len : Nat)

omit [DecidableEq B] in
def read : List α := (List.range len).map fun i => m b (off + i)

def write (xs : List α) : Memory B α :=
  update m b fun i => if off ≤ i then xs.getD (i - off) (m b i) else m b i

omit [DecidableEq B] in
@[simp] theorem read_length : (m.read b off len).length = len := by simp [read]

omit [DecidableEq B] in
theorem read_get (h : i < len) : (m.read b off len)[i]? = some (m b (off + i)) := by
  simp [read, h]

variable {m b off len} {xs : List α}

theorem write_inside (h : xs[i]? = some x) : m.write b off xs b (off + i) = x := by
  unfold write
  rw [Function.update_self, if_pos (Nat.le_add_right ..), Nat.add_sub_cancel_left,
    List.getD_eq_getElem?_getD, h, Option.getD_some]

theorem write_outside (h : i < off ∨ off + xs.length ≤ i) : m.write b off xs b i = m b i := by
  unfold write
  rw [Function.update_self]
  rcases h with h | h
  · rw [if_neg (Nat.not_le.mpr h)]
  · rw [if_pos (by omega), List.getD_eq_getElem?_getD, List.getElem?_eq_none (by omega), Option.getD_none]

theorem write_other (h : b' ≠ b) : m.write b off xs b' = m b' := Function.update_of_ne h _ _

end Memory

/-- Some elements at an offset replaced by as many others. -/
def splice (xs : List α) (off : Nat) (ys : List α) : List α :=
  xs.take off ++ ys ++ xs.drop (off + ys.length)

namespace Memory

variable {B α : Type}

/-- One section of an encoder's walk: `off` and the list that it fills. -/
def copyOut (m : Memory B α) (b : B) (base len : Nat) (walk : Nat × List α) : Nat × List α :=
  (walk.1 + len, splice walk.2 walk.1 (m.read b base len))

/-- One section of a decoder's walk: `off` and the memory that it writes. -/
def copyIn [DecidableEq B] (xs : List α) (b : B) (base len : Nat) (walk : Nat × Memory B α) :
    Nat × Memory B α :=
  (walk.1 + len, walk.2.write b base ((xs.drop walk.1).take len))

end Memory

theorem splice_at (before ys after : List α) :
    splice (before ++ after) before.length ys = before ++ ys ++ after.drop ys.length := by
  unfold splice
  rw [List.take_left, ← List.drop_drop, List.drop_left]

/-- A buffer cut into slots of one stride, and how much of a slot is live. -/
structure Lane (B : Type) where
  buffer : B
  stride : Nat
  live : Nat
  fits : live ≤ stride

namespace Lane

variable {B α : Type} [DecidableEq B]

/-- The offset belongs to a slot of the lane. -/
def Owns (lane : Lane B) (slot i : Nat) : Prop := slot * lane.stride ≤ i ∧ i < (slot + 1) * lane.stride

omit [DecidableEq B] in
theorem owns_unique {lane : Lane B} (h : lane.Owns s i) (h' : lane.Owns t i) : s = t := by
  rcases Nat.lt_trichotomy s t with hlt | heq | hgt
  · have := Nat.mul_le_mul_right lane.stride (Nat.succ_le_of_lt hlt)
    have hend := h.2
    have hstart := h'.1
    simp only [Nat.succ_eq_add_one] at this
    omega
  · exact heq
  · have := Nat.mul_le_mul_right lane.stride (Nat.succ_le_of_lt hgt)
    have hend := h'.2
    have hstart := h.1
    simp only [Nat.succ_eq_add_one] at this
    omega

omit [DecidableEq B] in
/-- The live part of a slot, lane after lane. -/
def collect (m : Memory B α) (lanes : List (Lane B)) (slot : Nat) : List α :=
  lanes.flatMap fun lane => m.read lane.buffer (slot * lane.stride) lane.live

/-- Elements laid into a slot's live parts, lane after lane. -/
def spread (lanes : List (Lane B)) (slot : Nat) (m : Memory B α) (xs : List α) : Memory B α :=
  match lanes with
  | [] => m
  | lane :: lanes =>
    spread lanes slot (m.write lane.buffer (slot * lane.stride) (xs.take lane.live))
      (xs.drop lane.live)

theorem spread_cons (lane : Lane B) (lanes : List (Lane B)) (slot : Nat) (m : Memory B α)
    (xs : List α) :
    spread (lane :: lanes) slot m xs =
      spread lanes slot (m.write lane.buffer (slot * lane.stride) (xs.take lane.live))
        (xs.drop lane.live) := rfl

omit [DecidableEq B] in
def total (lanes : List (Lane B)) : Nat := (lanes.map Lane.live).sum

omit [DecidableEq B] in
@[simp] theorem total_append (xs ys : List (Lane B)) : total (xs ++ ys) = total xs + total ys := by
  unfold total
  rw [List.map_append, List.sum_append]

omit [DecidableEq B] in
@[simp] theorem collect_length (m : Memory B α) (lanes : List (Lane B)) (slot : Nat) :
    (collect m lanes slot).length = total lanes := by
  induction lanes with
  | nil => rfl
  | cons lane lanes ih =>
    unfold collect total at ih ⊢
    rw [List.flatMap_cons, List.length_append, ih, Memory.read_length, List.map_cons, List.sum_cons]

/-- A buffer that is none of the lanes' keeps its content. -/
theorem spread_other {lanes : List (Lane B)} (h : ∀ lane ∈ lanes, lane.buffer ≠ b) :
    ∀ (m : Memory B α) (xs : List α), spread lanes slot m xs b = m b := by
  induction lanes with
  | nil => intro m xs; rfl
  | cons lane lanes ih =>
    intro m xs
    unfold spread
    rw [ih (fun l hl => h l (List.mem_cons_of_mem _ hl)),
      Memory.write_other (h lane List.mem_cons_self).symm]

/-- What the slot does not own keeps its content. -/
theorem spread_frame {lanes : List (Lane B)} {i : Nat}
    (h : ∀ lane ∈ lanes, lane.buffer = b → ¬ lane.Owns slot i) :
    ∀ (m : Memory B α) (xs : List α), spread lanes slot m xs b i = m b i := by
  induction lanes with
  | nil => intro m xs; rfl
  | cons lane lanes ih =>
    intro m xs
    unfold spread
    rw [ih fun l hl => h l (List.mem_cons_of_mem _ hl)]
    by_cases hb : lane.buffer = b
    · subst hb
      apply Memory.write_outside
      have howns := h lane List.mem_cons_self rfl
      have hfits := lane.fits
      unfold Owns at howns
      rw [Nat.add_mul, Nat.one_mul] at howns
      have hlen := List.length_take_le lane.live xs
      omega
    · rw [Memory.write_other (Ne.symm hb)]

/-- What was collected from a slot is in the slot that it is spread to. -/
theorem spread_collect {lanes : List (Lane B)} (hbuffers : (lanes.map Lane.buffer).Nodup)
    {lane : Lane B} (hlane : lane ∈ lanes) (hi : i < lane.live) (source : Memory B α) (s t : Nat) :
    ∀ (m : Memory B α) (rest : List α),
      spread lanes t m (collect source lanes s ++ rest) lane.buffer (t * lane.stride + i) =
        source lane.buffer (s * lane.stride + i) := by
  induction lanes with
  | nil => exact absurd hlane List.not_mem_nil
  | cons head lanes ih =>
    intro m rest
    rw [List.map_cons, List.nodup_cons] at hbuffers
    have hlen : (source.read head.buffer (s * head.stride) head.live).length = head.live :=
      Memory.read_length ..
    have hsplit : collect source (head :: lanes) s =
        source.read head.buffer (s * head.stride) head.live ++ collect source lanes s := by
      unfold collect
      rw [List.flatMap_cons]
    unfold spread
    rw [hsplit, List.append_assoc, List.take_left' hlen, List.drop_left' hlen]
    rcases List.mem_cons.mp hlane with rfl | hmem
    · rw [spread_other fun l hl hb => hbuffers.1 (List.mem_map.mpr ⟨l, hl, hb⟩)]
      exact Memory.write_inside (Memory.read_get _ _ _ _ hi)
    · exact ih hbuffers.2 hmem _ rest

omit [DecidableEq B] in
/-- The encoder's walk appends section to section. -/
theorem copyOut_walk (m : Memory B α) (lanes : List (Lane B)) (slot : Nat) :
    ∀ before after : List α,
      lanes.foldl (fun walk lane => m.copyOut lane.buffer (slot * lane.stride) lane.live walk)
          (before.length, before ++ after) =
        (before.length + total lanes,
          before ++ collect m lanes slot ++ after.drop (total lanes)) := by
  induction lanes with
  | nil =>
    intro before after
    simp [collect, total]
  | cons lane lanes ih =>
    intro before after
    have hlen : (m.read lane.buffer (slot * lane.stride) lane.live).length = lane.live :=
      Memory.read_length ..
    have hnext := ih (before ++ m.read lane.buffer (slot * lane.stride) lane.live)
      (after.drop lane.live)
    rw [List.length_append, hlen] at hnext
    rw [List.foldl_cons, Memory.copyOut, splice_at, hlen, hnext]
    unfold collect total
    rw [List.flatMap_cons, List.map_cons, List.sum_cons, List.drop_drop, Nat.add_assoc]
    simp only [List.append_assoc]

/-- The decoder's walk spreads what is left of the list. -/
theorem copyIn_walk (xs : List α) (lanes : List (Lane B)) (slot : Nat) :
    ∀ (off : Nat) (m : Memory B α),
      lanes.foldl (fun walk lane => Memory.copyIn xs lane.buffer (slot * lane.stride) lane.live walk)
          (off, m) =
        (off + total lanes, spread lanes slot m (xs.drop off)) := by
  induction lanes with
  | nil => intro off m; rfl
  | cons lane lanes ih =>
    intro off m
    have hnext := ih (off + lane.live)
      (m.write lane.buffer (slot * lane.stride) ((xs.drop off).take lane.live))
    rw [List.foldl_cons, Memory.copyIn, hnext, spread_cons]
    unfold total
    rw [List.map_cons, List.sum_cons, ← List.drop_drop, Nat.add_assoc]

end Lane

/-- The low `width` bytes of a number, the lowest first. -/
def toLeBytes : (width n : Nat) → List UInt8
  | 0, _ => []
  | width + 1, n => UInt8.ofNat n :: toLeBytes width (n / 256)

def fromLeBytes : List UInt8 → Nat
  | [] => 0
  | byte :: bytes => byte.toNat + 256 * fromLeBytes bytes

@[simp] theorem toLeBytes_length (width n : Nat) : (toLeBytes width n).length = width := by
  induction width generalizing n with
  | zero => rfl
  | succ width ih => simp [toLeBytes, ih]

theorem fromLeBytes_toLeBytes (h : n < 256 ^ width) : fromLeBytes (toLeBytes width n) = n := by
  induction width generalizing n with
  | zero =>
    have hzero : n = 0 := by simpa using h
    rw [hzero]
    rfl
  | succ width ih =>
    have hdiv : n / 256 < 256 ^ width := by
      rw [Nat.pow_succ] at h
      exact Nat.div_lt_of_lt_mul (by rw [Nat.mul_comm]; exact h)
    have hbyte : (UInt8.ofNat n).toNat = n % 256 := UInt8.toNat_ofNat'
    unfold toLeBytes fromLeBytes
    rw [ih hdiv, hbyte]
    exact Nat.mod_add_div n 256

end Flambeau.Systems
