import Flambeau.Systems.Strides
import Mathlib.Algebra.Ring.Defs
import Mathlib.Algebra.Ring.Int.Defs
import Mathlib.Tactic.IntervalCases

namespace Flambeau.Quant
open Systems

def byteAt (raw : List Nat) (i : Nat) : Nat := raw[i]?.getD 0

/-- `to_bits().to_le_bytes()` of an `f16`. -/
def halfBytes (bits : Fin 65536) : List Nat := [bits.val % 256, bits.val / 256]

/-- The bits of the `f16` at byte `i`. -/
def halfAt (raw : List Nat) (i : Nat) : Nat := byteAt raw i + 256 * byteAt raw (i + 1)

/-- What the Q4_K quantiser has chosen when it packs: super-scales, sub-scales and
sub-mins of six bits, codes of four. -/
structure ChoiceQ4K where
  d : Fin 65536
  dmin : Fin 65536
  ls : Nat → Fin 64
  lm : Nat → Fin 64
  localL : Nat → Fin 16

/-- What the Q2_K quantiser has chosen. -/
structure ChoiceQ2K where
  d : Fin 65536
  dmin : Fin 65536
  ls : Nat → Fin 16
  lm : Nat → Fin 16
  localL : Nat → Fin 4

/-- What the Q3_K quantiser has chosen: scales of six bits around 32, codes of three
around 4. -/
structure ChoiceQ3K where
  d : Fin 65536
  ls : Nat → Fin 64
  localL : Nat → Fin 8

/-- One step of the loop over `block_scales`. -/
def scaleStepQ4K (c : ChoiceQ4K) (blockScales : List Nat) (j : Nat) : List Nat :=
  let ls := (c.ls j).val
  let lm := (c.lm j).val
  if j < 4 then (blockScales.set j ls).set (j + 4) lm
  else
    let low := blockScales.set (j + 4) ((ls &&& 0xF) ||| ((lm &&& 0xF) <<< 4))
    let high := low.modify (j - 4) (· ||| ((ls >>> 4) <<< 6))
    high.modify j (· ||| ((lm >>> 4) <<< 6))

def blockScalesQ4K (c : ChoiceQ4K) : List Nat :=
  (List.range 8).foldl (scaleStepQ4K c) (List.replicate 12 0)

/-- The layout that `pack_block_q4_k` writes. -/
def packBlockQ4K (c : ChoiceQ4K) : List Nat :=
  halfBytes c.d ++ (halfBytes c.dmin ++ (blockScalesQ4K c ++
    (List.range 4).flatMap fun step => (List.range 32).map fun l =>
      (c.localL (64 * step + l)).val ||| ((c.localL (64 * step + l + 32)).val <<< 4)))

/-- `block_scales[j] = ls`, then `|= m << 4`. -/
def blockScalesQ2K (c : ChoiceQ2K) : List Nat :=
  (List.range 16).map fun j => (c.ls j).val ||| ((c.lm j).val <<< 4)

/-- Four codes a byte, 32 apart. -/
def packQs (l : Nat → Nat) : List Nat :=
  (List.range 2).flatMap fun half => (List.range 32).map fun i =>
    l (128 * half + i) ||| (l (128 * half + i + 32) <<< 2) |||
      (l (128 * half + i + 64) <<< 4) ||| (l (128 * half + i + 96) <<< 6)

def packBlockQ2K (c : ChoiceQ2K) : List Nat :=
  blockScalesQ2K c ++ (packQs (fun e => (c.localL e).val) ++ (halfBytes c.d ++ halfBytes c.dmin))

def scaleStepQ3K (c : ChoiceQ3K) (blockScales : List Nat) (j : Nat) : List Nat :=
  let l := (c.ls j).val
  let low :=
    if j < 8 then blockScales.set j (l &&& 0xF)
    else blockScales.modify (j - 8) (· ||| ((l &&& 0xF) <<< 4))
  low.modify (j % 4 + 8) (· ||| ((l >>> 4) <<< (2 * (j / 4))))

def blockScalesQ3K (c : ChoiceQ3K) : List Nat :=
  (List.range 16).foldl (scaleStepQ3K c) (List.replicate 12 0)

/-- The state of the loop that moves the third bit of each code to `hmask`. -/
structure HmaskLoop where
  hmask : List Nat
  mIdx : Nat
  hm : Nat

def hmaskStep (c : ChoiceQ3K) (s : HmaskLoop) (e : Nat) : HmaskLoop :=
  let hmask := if 3 < (c.localL e).val then s.hmask.modify s.mIdx (· ||| s.hm) else s.hmask
  if s.mIdx + 1 = 32 then ⟨hmask, 0, s.hm <<< 1 % 256⟩ else ⟨hmask, s.mIdx + 1, s.hm⟩

def hmaskLoop (c : ChoiceQ3K) (n : Nat) : HmaskLoop :=
  (List.range n).foldl (hmaskStep c) ⟨List.replicate 32 0, 0, 1⟩

/-- A code without its third bit. -/
def lowCode (l : Nat) : Nat := if 3 < l then l - 4 else l

def packBlockQ3K (c : ChoiceQ3K) : List Nat :=
  (hmaskLoop c 256).hmask ++ (packQs (fun e => lowCode (c.localL e).val) ++
    (blockScalesQ3K c ++ halfBytes c.d))

structure BlockQ4K where
  d : Nat
  dmin : Nat
  scales : Nat → Nat
  qs : Nat → Nat

structure BlockQ2K where
  scales : Nat → Nat
  qs : Nat → Nat
  d : Nat
  dmin : Nat

structure BlockQ3K where
  hmask : Nat → Nat
  qs : Nat → Nat
  scales : Nat → Nat
  d : Nat

def BlockQ4K.ofBytes (raw : List Nat) : BlockQ4K where
  d := halfAt raw 0
  dmin := halfAt raw 2
  scales k := byteAt raw (4 + k)
  qs k := byteAt raw (16 + k)

def BlockQ2K.ofBytes (raw : List Nat) : BlockQ2K where
  scales k := byteAt raw k
  qs k := byteAt raw (16 + k)
  d := halfAt raw 80
  dmin := halfAt raw 82

def BlockQ3K.ofBytes (raw : List Nat) : BlockQ3K where
  hmask k := byteAt raw k
  qs k := byteAt raw (32 + k)
  scales k := byteAt raw (96 + k)
  d := halfAt raw 108

def getScaleMinK4 (j : Nat) (q : Nat → Nat) : Nat × Nat :=
  if j < 4 then (q j &&& 63, q (j + 4) &&& 63)
  else
    ((q (j + 4) &&& 0xF) ||| ((q (j - 4) >>> 6) <<< 4),
      (q (j + 4) >>> 4) ||| ((q j >>> 6) <<< 4))

section Dequant

variable {R : Type} [Ring R] (toF32 : Nat → R)

/-- `d * sc * q - min * m`. -/
def affine (d min sc m q : Nat) : R := toF32 d * (sc : R) * (q : R) - toF32 min * (m : R)

def dequantQ4K (x : BlockQ4K) : List R :=
  (List.range 4).flatMap fun step =>
    let is := 2 * step
    let low := getScaleMinK4 is x.scales
    let high := getScaleMinK4 (is + 1) x.scales
    ((List.range 32).map fun l => affine toF32 x.d x.dmin low.1 low.2 (x.qs (32 * step + l) &&& 0xF)) ++
      (List.range 32).map fun l => affine toF32 x.d x.dmin high.1 high.2 (x.qs (32 * step + l) >>> 4)

def dequantQ2K (x : BlockQ2K) : List R :=
  (List.range 2).flatMap fun chunk => (List.range 4).flatMap fun iter =>
    let shift := 2 * iter
    let is := 8 * chunk + 2 * iter
    let low := x.scales is
    let high := x.scales (is + 1)
    ((List.range 16).map fun l =>
        affine toF32 x.d x.dmin (low &&& 0xF) (low >>> 4) ((x.qs (32 * chunk + l) >>> shift) &&& 3)) ++
      (List.range 16).map fun l =>
        affine toF32 x.d x.dmin (high &&& 0xF) (high >>> 4)
          ((x.qs (32 * chunk + 16 + l) >>> shift) &&& 3)

/-- `read_u32_into` of the twelve scale bytes. -/
def scaleWord (scales : Nat → Nat) (w : Nat) : Nat :=
  scales (4 * w) + 256 * scales (4 * w + 1) + 65536 * scales (4 * w + 2) +
    16777216 * scales (4 * w + 3)

def kmask1 : Nat := 0x03030303
def kmask2 : Nat := 0x0f0f0f0f

/-- The words of the sixteen scales of six bits. -/
def auxWord (scales : Nat → Nat) (w : Nat) : Nat :=
  let aux0 := scaleWord scales 0
  let aux1 := scaleWord scales 1
  let tmp := scaleWord scales 2
  match w with
  | 0 => (aux0 &&& kmask2) ||| ((tmp &&& kmask1) <<< 4)
  | 1 => (aux1 &&& kmask2) ||| (((tmp >>> 2) &&& kmask1) <<< 4)
  | 2 => ((aux0 >>> 4) &&& kmask2) ||| (((tmp >>> 4) &&& kmask1) <<< 4)
  | _ => ((aux1 >>> 4) &&& kmask2) ||| (((tmp >>> 6) &&& kmask1) <<< 4)

/-- Byte `k` of `w.to_le_bytes()`. -/
def wordByte (w k : Nat) : Nat := w >>> (8 * k) % 256

def unpackedScale (scales : Nat → Nat) (is : Nat) : Nat := wordByte (auxWord scales (is / 4)) (is % 4)

/-- `d * (sc - 32) * q` for a signed code. -/
def centred (d sc : Nat) (q : Int) : R := toF32 d * ((sc : R) - 32) * (q : R)

def dequantQ3K (x : BlockQ3K) : List R :=
  (List.range 2).flatMap fun blk128 => (List.range 4).flatMap fun shiftIter =>
    (List.range 2).flatMap fun scaleIdx => (List.range 16).map fun l =>
      let is := 8 * blk128 + 2 * shiftIter + scaleIdx
      let m := 1 <<< (4 * blk128 + shiftIter)
      let qi := l + 16 * scaleIdx
      let sub : Int := if x.hmask qi &&& m = 0 then 4 else 0
      let q := (x.qs (32 * blk128 + qi) >>> (2 * shiftIter)) &&& 3
      centred toF32 x.d (unpackedScale x.scales is) ((q : Int) - sub)

end Dequant

theorem byteAt_skip (h : xs.length = n) : byteAt (xs ++ ys) (n + k) = byteAt ys k := by
  unfold byteAt
  rw [List.getElem?_append_right (by omega), h, Nat.add_sub_cancel_left]

theorem byteAt_keep (h : k < xs.length) : byteAt (xs ++ ys) k = byteAt xs k := by
  unfold byteAt
  rw [List.getElem?_append_left h]

theorem byteAt_map (f : Nat → Nat) (h : k < n) : byteAt ((List.range n).map f) k = f k := by
  unfold byteAt
  rw [List.getElem?_map, List.getElem?_range h]
  rfl

theorem halfAt_bytes (bits : Fin 65536) (rest : List Nat) :
    halfAt (halfBytes bits ++ rest) 0 = bits.val := by
  have hword : byteAt (halfBytes bits ++ rest) 0 = bits.val % 256 := rfl
  have hhigh : byteAt (halfBytes bits ++ rest) (0 + 1) = bits.val / 256 := rfl
  unfold halfAt
  rw [hword, hhigh]
  omega

theorem halfAt_skip (h : xs.length = n) : halfAt (xs ++ ys) (n + k) = halfAt ys k := by
  unfold halfAt
  rw [byteAt_skip h, Nat.add_assoc, byteAt_skip h]

/-- A code below `2 ^ i` and one above it share no bit. -/
theorem or_shiftLeft (h : x < 2 ^ i) (y : Nat) : x ||| y <<< i = x + y * 2 ^ i := by
  rw [Nat.or_comm, ← Nat.shiftLeft_add_eq_or_of_lt h, Nat.shiftLeft_eq]
  exact Nat.add_comm _ _

theorem and_three (x : Nat) : x &&& 3 = x % 4 := Nat.and_two_pow_sub_one_eq_mod x 2

theorem and_fifteen (x : Nat) : x &&& 0xF = x % 16 := Nat.and_two_pow_sub_one_eq_mod x 4

theorem and_sixtyThree (x : Nat) : x &&& 63 = x % 64 := Nat.and_two_pow_sub_one_eq_mod x 6

/-- Two codes of four bits in a byte. -/
theorem nibbles_split : ∀ a b : Fin 16,
    ((a.val ||| (b.val <<< 4)) &&& 0xF) = a.val ∧ (a.val ||| (b.val <<< 4)) >>> 4 = b.val := by
  intro a b
  rw [or_shiftLeft (show a.val < 2 ^ 4 from a.isLt), and_fifteen, Nat.shiftRight_eq_div_pow]
  omega

/-- The low six bits are one scale, the two above them belong to another. -/
theorem sixBits_split : ∀ a b : Fin 64,
    ((a.val ||| ((b.val >>> 4) <<< 6)) &&& 63) = a.val ∧
      (a.val ||| ((b.val >>> 4) <<< 6)) >>> 6 = b.val >>> 4 := by
  intro a b
  rw [or_shiftLeft (show a.val < 2 ^ 6 from a.isLt), and_sixtyThree]
  simp only [Nat.shiftRight_eq_div_pow]
  omega

/-- A scale and a min come back from a byte of low halves and their borrowed bits. -/
theorem sixBits_join : ∀ a b : Fin 64,
    ((((a.val &&& 0xF) ||| ((b.val &&& 0xF) <<< 4)) &&& 0xF) ||| ((a.val >>> 4) <<< 4)) = a.val ∧
      ((((a.val &&& 0xF) ||| ((b.val &&& 0xF) <<< 4)) >>> 4) ||| ((b.val >>> 4) <<< 4)) = b.val := by
  intro a b
  simp only [and_fifteen]
  rw [or_shiftLeft (show a.val % 16 < 2 ^ 4 by omega), or_shiftLeft (show _ < 2 ^ 4 by omega),
    Nat.shiftRight_eq_div_pow _ 4, or_shiftLeft (show _ < 2 ^ 4 by omega)]
  simp only [Nat.shiftRight_eq_div_pow]
  omega

theorem blockScalesQ4K_eq (c : ChoiceQ4K) :
    blockScalesQ4K c =
      [(c.ls 0).val ||| (((c.ls 4).val >>> 4) <<< 6), (c.ls 1).val ||| (((c.ls 5).val >>> 4) <<< 6),
        (c.ls 2).val ||| (((c.ls 6).val >>> 4) <<< 6), (c.ls 3).val ||| (((c.ls 7).val >>> 4) <<< 6),
        (c.lm 0).val ||| (((c.lm 4).val >>> 4) <<< 6), (c.lm 1).val ||| (((c.lm 5).val >>> 4) <<< 6),
        (c.lm 2).val ||| (((c.lm 6).val >>> 4) <<< 6), (c.lm 3).val ||| (((c.lm 7).val >>> 4) <<< 6),
        ((c.ls 4).val &&& 0xF) ||| (((c.lm 4).val &&& 0xF) <<< 4),
        ((c.ls 5).val &&& 0xF) ||| (((c.lm 5).val &&& 0xF) <<< 4),
        ((c.ls 6).val &&& 0xF) ||| (((c.lm 6).val &&& 0xF) <<< 4),
        ((c.ls 7).val &&& 0xF) ||| (((c.lm 7).val &&& 0xF) <<< 4)] :=
  rfl

/-- The three bytes that hold the scales and mins `j` and `j + 4`. -/
theorem blockScalesQ4K_bytes (c : ChoiceQ4K) (hj : j < 4) :
    byteAt (blockScalesQ4K c) j = (c.ls j).val ||| (((c.ls (j + 4)).val >>> 4) <<< 6) ∧
      byteAt (blockScalesQ4K c) (j + 4) = (c.lm j).val ||| (((c.lm (j + 4)).val >>> 4) <<< 6) ∧
      byteAt (blockScalesQ4K c) (j + 8) =
        ((c.ls (j + 4)).val &&& 0xF) ||| (((c.lm (j + 4)).val &&& 0xF) <<< 4) := by
  rw [blockScalesQ4K_eq]
  interval_cases j
  · exact ⟨rfl, rfl, rfl⟩
  · exact ⟨rfl, rfl, rfl⟩
  · exact ⟨rfl, rfl, rfl⟩
  · exact ⟨rfl, rfl, rfl⟩

theorem getScaleMinK4_packed (c : ChoiceQ4K) (hj : j < 8) :
    getScaleMinK4 j (byteAt (blockScalesQ4K c)) = ((c.ls j).val, (c.lm j).val) := by
  unfold getScaleMinK4
  by_cases hlow : j < 4
  · obtain ⟨hscale, hmin, -⟩ := blockScalesQ4K_bytes c hlow
    rw [if_pos hlow, hscale, hmin, (sixBits_split _ _).1, (sixBits_split _ _).1]
  · obtain ⟨i, rfl⟩ := Nat.exists_eq_add_of_le (Nat.le_of_not_lt hlow)
    obtain ⟨hscale, hmin, hboth⟩ := blockScalesQ4K_bytes c (show i < 4 by omega)
    rw [if_neg hlow, show 4 + i + 4 = i + 8 by omega, show 4 + i - 4 = i by omega,
      Nat.add_comm 4 i, hboth, hscale, hmin, (sixBits_split _ _).2, (sixBits_split _ _).2,
      (sixBits_join _ _).1, (sixBits_join _ _).2]

theorem blockScalesQ4K_length (c : ChoiceQ4K) : (blockScalesQ4K c).length = 12 := by
  rw [blockScalesQ4K_eq]
  rfl

theorem halfBytes_length (bits : Fin 65536) : (halfBytes bits).length = 2 := rfl

/-- The packed block read back as its struct. -/
theorem ofBytes_packBlockQ4K (c : ChoiceQ4K) :
    (BlockQ4K.ofBytes (packBlockQ4K c)).d = c.d.val ∧
      (BlockQ4K.ofBytes (packBlockQ4K c)).dmin = c.dmin.val ∧
      (∀ j < 8, getScaleMinK4 j (BlockQ4K.ofBytes (packBlockQ4K c)).scales =
        ((c.ls j).val, (c.lm j).val)) ∧
      ∀ step < 4, ∀ l < 32, (BlockQ4K.ofBytes (packBlockQ4K c)).qs (32 * step + l) =
        (c.localL (64 * step + l)).val ||| ((c.localL (64 * step + l + 32)).val <<< 4) := by
  refine ⟨halfAt_bytes _ _, ?_, ?_, ?_⟩
  · exact (halfAt_skip (k := 0) (halfBytes_length _)).trans (halfAt_bytes _ _)
  · intro j hj
    have hscales : ∀ k < 12, (BlockQ4K.ofBytes (packBlockQ4K c)).scales k =
        byteAt (blockScalesQ4K c) k := by
      intro k hk
      change byteAt (packBlockQ4K c) (4 + k) = _
      unfold packBlockQ4K
      rw [show 4 + k = 2 + (2 + k) by omega, byteAt_skip (halfBytes_length _),
        byteAt_skip (halfBytes_length _), byteAt_keep (by rw [blockScalesQ4K_length]; exact hk)]
    rw [← getScaleMinK4_packed c hj]
    unfold getScaleMinK4
    split
    · rw [hscales _ (by omega), hscales _ (by omega)]
    · rw [hscales _ (by omega), hscales _ (by omega), hscales _ (by omega)]
  · intro step hstep l hl
    change byteAt (packBlockQ4K c) (16 + (32 * step + l)) = _
    unfold packBlockQ4K
    rw [show 16 + (32 * step + l) = 2 + (2 + (12 + (32 * step + l))) by omega,
      byteAt_skip (halfBytes_length _), byteAt_skip (halfBytes_length _),
      byteAt_skip (blockScalesQ4K_length c), rows_map, byteAt_map _ (by omega)]
    rw [show (32 * step + l) / 32 = step by omega, show (32 * step + l) % 32 = l by omega]

section RoundTrip

variable {R : Type} [Ring R] (toF32 : Nat → R)

omit [Ring R] in
/-- A loop of two parts is a loop over its halves. -/
theorem halves_flatMap (n m : Nat) (low high : Nat → Nat → R) :
    ((List.range n).flatMap fun i => (List.range m).map (low i) ++ (List.range m).map (high i)) =
      (List.range (n * (2 * m))).map fun e =>
        if e / m % 2 = 0 then low (e / (2 * m)) (e % m) else high (e / (2 * m)) (e % m) := by
  have hpair : ∀ i, (List.range m).map (low i) ++ (List.range m).map (high i) =
      (List.range (2 * m)).map fun e => if e / m = 0 then low i (e % m) else high i (e % m) := by
    intro i
    rw [← rows_map 2 m fun h e => if h = 0 then low i e else high i e,
      show List.range 2 = [0, 1] from rfl]
    simp
  rw [funext hpair, rows_map]
  apply List.map_congr_left
  intro e _
  rw [Nat.mod_mul_left_div_self, Nat.mod_mul_left_mod]

/-- Q4_K: each element is `d * sc * l - dmin * m` of its sub-block of 32. -/
theorem dequantQ4K_packed (c : ChoiceQ4K) (he : e < 256) :
    (dequantQ4K toF32 (BlockQ4K.ofBytes (packBlockQ4K c)))[e]? =
      some (affine toF32 c.d.val c.dmin.val (c.ls (e / 32)).val (c.lm (e / 32)).val
        (c.localL e).val) := by
  obtain ⟨hd, hdmin, hscales, hqs⟩ := ofBytes_packBlockQ4K c
  unfold dequantQ4K
  dsimp only
  rw [halves_flatMap, List.getElem?_map, List.getElem?_range he, Option.map_some, hd, hdmin,
    hscales _ (by omega), hscales _ (by omega), hqs _ (by omega) _ (by omega),
    (nibbles_split _ _).1, (nibbles_split _ _).2]
  by_cases hhalf : e / 32 % 2 = 0
  · rw [if_pos hhalf, show 2 * (e / (2 * 32)) = e / 32 by omega,
      show 64 * (e / (2 * 32)) + e % 32 = e by omega]
  · rw [if_neg hhalf, show 2 * (e / (2 * 32)) + 1 = e / 32 by omega,
      show 64 * (e / (2 * 32)) + e % 32 + 32 = e by omega]

/-- Four codes of two bits in a byte. -/
theorem pairs_split : ∀ a b c d : Fin 4, ∀ i : Fin 4,
    ((a.val ||| (b.val <<< 2) ||| (c.val <<< 4) ||| (d.val <<< 6)) >>> (2 * i.val)) &&& 3 =
      (if i = 0 then a else if i = 1 then b else if i = 2 then c else d).val := by
  intro a b c d i
  rw [or_shiftLeft (show a.val < 2 ^ 2 from a.isLt), or_shiftLeft (show _ < 2 ^ 4 by omega),
    or_shiftLeft (show _ < 2 ^ 6 by omega), and_three, Nat.shiftRight_eq_div_pow]
  obtain ⟨i, hi⟩ := i
  interval_cases i
  · change _ / 1 % 4 = a.val
    omega
  · change _ / 4 % 4 = b.val
    omega
  · change _ / 16 % 4 = c.val
    omega
  · change _ / 64 % 4 = d.val
    omega

theorem packQs_length (l : Nat → Nat) : (packQs l).length = 64 := by
  unfold packQs
  rw [rows_map, List.length_map, List.length_range]

/-- The code at place `32 * iter + i` of a half comes out of its byte. -/
theorem packQs_code (l : Nat → Nat) (hl : ∀ e, l e < 4) (hhalf : half < 2) (hi : i < 32)
    (hiter : iter < 4) :
    ((byteAt (packQs l) (32 * half + i) >>> (2 * iter)) &&& 3) =
      l (128 * half + 32 * iter + i) := by
  unfold packQs
  rw [rows_map, byteAt_map _ (by omega), show (32 * half + i) / 32 = half by omega,
    show (32 * half + i) % 32 = i by omega]
  have hsplit := pairs_split ⟨_, hl (128 * half + i)⟩ ⟨_, hl (128 * half + i + 32)⟩
    ⟨_, hl (128 * half + i + 64)⟩ ⟨_, hl (128 * half + i + 96)⟩ ⟨iter, hiter⟩
  dsimp only at hsplit
  rw [hsplit]
  interval_cases iter
  · rfl
  · change l _ = l _
    congr 1
    omega
  · change l _ = l _
    congr 1
    omega
  · change l _ = l _
    congr 1
    omega

theorem blockScalesQ2K_length (c : ChoiceQ2K) : (blockScalesQ2K c).length = 16 := by
  simp [blockScalesQ2K]

theorem ofBytes_packBlockQ2K (c : ChoiceQ2K) :
    (BlockQ2K.ofBytes (packBlockQ2K c)).d = c.d.val ∧
      (BlockQ2K.ofBytes (packBlockQ2K c)).dmin = c.dmin.val ∧
      (∀ j < 16, (BlockQ2K.ofBytes (packBlockQ2K c)).scales j =
        (c.ls j).val ||| ((c.lm j).val <<< 4)) ∧
      ∀ k < 64, (BlockQ2K.ofBytes (packBlockQ2K c)).qs k =
        byteAt (packQs fun e => (c.localL e).val) k := by
  have hscales := blockScalesQ2K_length c
  have hqs := packQs_length fun e => (c.localL e).val
  refine ⟨?_, ?_, ?_, ?_⟩
  · exact (halfAt_skip (k := 64) hscales).trans
      ((halfAt_skip (k := 0) hqs).trans (halfAt_bytes _ _))
  · refine (halfAt_skip (k := 66) hscales).trans ((halfAt_skip (k := 2) hqs).trans ?_)
    refine (halfAt_skip (k := 0) (halfBytes_length _)).trans ?_
    rw [← List.append_nil (halfBytes c.dmin)]
    exact halfAt_bytes _ _
  · intro j hj
    change byteAt (packBlockQ2K c) j = _
    unfold packBlockQ2K
    rw [byteAt_keep (by rw [hscales]; exact hj)]
    unfold blockScalesQ2K
    rw [byteAt_map _ hj]
  · intro k hk
    change byteAt (packBlockQ2K c) (16 + k) = _
    unfold packBlockQ2K
    rw [byteAt_skip hscales, byteAt_keep (by rw [hqs]; exact hk)]

/-- Q2_K: each element is `d * sc * l - dmin * m` of its sub-block of 16. -/
theorem dequantQ2K_packed (c : ChoiceQ2K) (he : e < 256) :
    (dequantQ2K toF32 (BlockQ2K.ofBytes (packBlockQ2K c)))[e]? =
      some (affine toF32 c.d.val c.dmin.val (c.ls (e / 16)).val (c.lm (e / 16)).val
        (c.localL e).val) := by
  obtain ⟨hd, hdmin, hscales, hqs⟩ := ofBytes_packBlockQ2K c
  unfold dequantQ2K
  dsimp only
  simp only [halves_flatMap]
  rw [rows_map, List.getElem?_map, List.getElem?_range he, Option.map_some, hd, hdmin,
    hscales _ (by omega), hscales _ (by omega), hqs _ (by omega), hqs _ (by omega),
    (nibbles_split _ _).1, (nibbles_split _ _).1, (nibbles_split _ _).2, (nibbles_split _ _).2]
  have hbits : ∀ e, (c.localL e).val < 4 := fun e => (c.localL e).isLt
  by_cases hhalf : e % (4 * (2 * 16)) / 16 % 2 = 0
  · rw [if_pos hhalf, packQs_code _ hbits (by omega) (by omega) (by omega),
      show 8 * (e / (4 * (2 * 16))) + 2 * (e % (4 * (2 * 16)) / (2 * 16)) = e / 16 by omega,
      show 128 * (e / (4 * (2 * 16))) + 32 * (e % (4 * (2 * 16)) / (2 * 16)) +
        e % (4 * (2 * 16)) % 16 = e by omega]
  · rw [if_neg hhalf, Nat.add_assoc (32 * _) 16,
      packQs_code _ hbits (by omega) (by omega) (by omega),
      show 8 * (e / (4 * (2 * 16))) + 2 * (e % (4 * (2 * 16)) / (2 * 16)) + 1 = e / 16 by omega,
      show 128 * (e / (4 * (2 * 16))) + 32 * (e % (4 * (2 * 16)) / (2 * 16)) +
        (16 + e % (4 * (2 * 16)) % 16) = e by omega]

theorem byteAt_modify (f : Nat → Nat) (hm : m < xs.length) :
    byteAt (xs.modify m f) i = if i = m then f (byteAt xs i) else byteAt xs i := by
  unfold byteAt
  rw [List.getElem?_modify]
  by_cases heq : i = m
  · subst heq
    rw [if_pos rfl, List.getElem?_eq_getElem hm]
    simp
  · rw [if_neg heq]
    simp [show m ≠ i from fun h => heq h.symm]

/-- After `n` codes the bits of `hmask` are those of the codes seen. -/
theorem hmaskLoop_spec (c : ChoiceQ3K) (hn : n ≤ 256) :
    (hmaskLoop c n).mIdx = n % 32 ∧ (hmaskLoop c n).hm = 2 ^ (n / 32) % 256 ∧
      (hmaskLoop c n).hmask.length = 32 ∧
      ∀ i < 32, ∀ t < 8, (byteAt (hmaskLoop c n).hmask i).testBit t =
        (decide (32 * t + i < n) && decide (3 < (c.localL (32 * t + i)).val)) := by
  induction n with
  | zero =>
    refine ⟨rfl, rfl, rfl, fun i hi t _ => ?_⟩
    have hzero : byteAt (hmaskLoop c 0).hmask i = 0 := by
      change byteAt (List.replicate 32 0) i = 0
      unfold byteAt
      rw [List.getElem?_replicate, if_pos hi]
      rfl
    rw [hzero, Nat.zero_testBit]
    simp
  | succ n ih =>
    obtain ⟨hidx, hhm, hlen, hbits⟩ := ih (by omega)
    have hstep : hmaskLoop c (n + 1) = hmaskStep c (hmaskLoop c n) n := by
      unfold hmaskLoop
      rw [List.range_succ, List.foldl_append]
      rfl
    have hpow : 2 ^ (n / 32) % 256 = 2 ^ (n / 32) :=
      Nat.mod_eq_of_lt (Nat.pow_lt_pow_right (by omega) (show n / 32 < 8 by omega))
    rw [hpow] at hhm
    have hmask : (hmaskStep c (hmaskLoop c n) n).hmask =
        if 3 < (c.localL n).val then (hmaskLoop c n).hmask.modify (n % 32) (· ||| 2 ^ (n / 32))
        else (hmaskLoop c n).hmask := by
      unfold hmaskStep
      rw [hidx, hhm]
      dsimp only
      split <;> rfl
    rw [hstep]
    refine ⟨?_, ?_, ?_, ?_⟩
    · unfold hmaskStep
      rw [hidx]
      dsimp only
      split
      · dsimp only
        omega
      · dsimp only
        omega
    · unfold hmaskStep
      rw [hidx, hhm]
      dsimp only
      split
      · rw [show (n + 1) / 32 = n / 32 + 1 by omega, Nat.pow_succ, Nat.shiftLeft_eq]
      · rw [show (n + 1) / 32 = n / 32 by omega, hpow]
    · rw [hmask]
      split
      · rw [List.length_modify, hlen]
      · exact hlen
    · intro i hi t ht
      rw [hmask]
      by_cases hcode : 3 < (c.localL n).val
      · rw [if_pos hcode, byteAt_modify _ (by rw [hlen]; exact Nat.mod_lt _ (by omega))]
        by_cases hat : i = n % 32
        · rw [if_pos hat, Nat.testBit_or, hbits i hi t ht, Nat.testBit_two_pow]
          by_cases hbit : n / 32 = t
          · have hplace : 32 * t + i = n := by omega
            rw [hplace]
            simp [hbit, hcode]
          · have hsame : decide (32 * t + i < n + 1) = decide (32 * t + i < n) :=
              decide_eq_decide.mpr (by omega)
            rw [hsame]
            simp [hbit]
        · rw [if_neg hat, hbits i hi t ht,
            show decide (32 * t + i < n) = decide (32 * t + i < n + 1) from
              decide_eq_decide.mpr (by omega)]
      · rw [if_neg hcode, hbits i hi t ht]
        by_cases hplace : 32 * t + i = n
        · rw [hplace]
          simp [hcode]
        · rw [show decide (32 * t + i < n) = decide (32 * t + i < n + 1) from
              decide_eq_decide.mpr (by omega)]

/-- Each byte of a scale word is a low half and two borrowed bits. -/
theorem wordByte_masks (a t : Nat) (hr : r ≤ 4) (hs : s ≤ 6) (hk : k < 4) :
    wordByte (((a >>> r) &&& kmask2) ||| (((t >>> s) &&& kmask1) <<< 4)) k =
      ((wordByte a k >>> r) &&& 0xF) ||| (((wordByte t k >>> s) &&& 3) <<< 4) := by
  have hmask2 : ∀ k < 4, ∀ i < 8, kmask2.testBit (8 * k + i) = decide (i < 4) := by decide
  have hmask1 : ∀ k < 4, ∀ i < 8, kmask1.testBit (8 * k + i) = decide (i < 2) := by decide
  apply Nat.eq_of_testBit_eq
  intro i
  unfold wordByte
  rw [show 256 = 2 ^ 8 from rfl, show 0xF = 2 ^ 4 - 1 from rfl, show 3 = 2 ^ 2 - 1 from rfl]
  simp only [Nat.testBit_mod_two_pow, Nat.testBit_shiftRight, Nat.testBit_or, Nat.testBit_and,
    Nat.testBit_shiftLeft, Nat.testBit_two_pow_sub_one]
  by_cases hbyte : i < 8
  · rw [hmask2 k hk i hbyte]
    by_cases hlow : i < 4
    · have hprevious : (decide (8 * k + i ≥ 4) && (t.testBit (s + (8 * k + i - 4)) &&
          kmask1.testBit (8 * k + i - 4))) = false := by
        cases k with
        | zero => simp; omega
        | succ k =>
          rw [show 8 * (k + 1) + i - 4 = 8 * k + (i + 4) by omega,
            hmask1 k (by omega) (i + 4) (by omega)]
          simp
      rw [hprevious, show r + (8 * k + i) = 8 * k + (r + i) by omega]
      simp [hbyte, hlow, show r + i < 8 by omega, show ¬ 4 ≤ i by omega]
    · rw [show 8 * k + i - 4 = 8 * k + (i - 4) by omega, hmask1 k hk (i - 4) (by omega),
        show s + (8 * k + (i - 4)) = 8 * k + (s + (i - 4)) by omega]
      by_cases hborrowed : i < 6
      · simp [hbyte, hlow, show i - 4 < 2 by omega, show s + (i - 4) < 8 by omega,
          show 4 ≤ 8 * k + i by omega, show 4 ≤ i by omega]
      · simp [hlow, show ¬ i - 4 < 2 by omega]
  · simp [hbyte, show ¬ i < 4 by omega, show ¬ i - 4 < 2 by omega]

theorem wordByte_scaleWord {scales : Nat → Nat} (h : ∀ k < 12, scales k < 256) (hw : w < 3)
    (hk : k < 4) : wordByte (scaleWord scales w) k = scales (4 * w + k) := by
  have h0 := h (4 * w) (by omega)
  have h1 := h (4 * w + 1) (by omega)
  have h2 := h (4 * w + 2) (by omega)
  have h3 := h (4 * w + 3) (by omega)
  unfold wordByte scaleWord
  rw [Nat.shiftRight_eq_div_pow]
  interval_cases k
  · simp only [Nat.mul_zero, Nat.pow_zero, Nat.div_one, Nat.add_zero]
    omega
  · omega
  · omega
  · omega

/-- A byte of the low halves of two scales. -/
theorem lowHalves_split : ∀ a b : Fin 64,
    ((((a.val &&& 0xF) ||| ((b.val &&& 0xF) <<< 4)) >>> 0) &&& 0xF) = a.val &&& 0xF ∧
      ((((a.val &&& 0xF) ||| ((b.val &&& 0xF) <<< 4)) >>> 4) &&& 0xF) = b.val &&& 0xF ∧
        ((a.val &&& 0xF) ||| ((b.val &&& 0xF) <<< 4)) < 256 := by
  intro a b
  simp only [and_fifteen]
  rw [or_shiftLeft (show a.val % 16 < 2 ^ 4 by omega)]
  simp only [Nat.shiftRight_eq_div_pow]
  omega

theorem halves_join : ∀ a : Fin 64, ((a.val &&& 0xF) ||| ((a.val >>> 4) <<< 4)) = a.val := by
  intro a
  rw [and_fifteen, or_shiftLeft (show a.val % 16 < 2 ^ 4 by omega), Nat.shiftRight_eq_div_pow]
  omega

theorem highBits_lt : ∀ a : Fin 64, a.val >>> 4 < 4 := by
  intro a
  rw [Nat.shiftRight_eq_div_pow]
  omega

theorem pairs_lt : ∀ a b c d : Fin 4,
    (a.val ||| (b.val <<< 2) ||| (c.val <<< 4) ||| (d.val <<< 6)) < 256 := by
  intro a b c d
  rw [or_shiftLeft (show a.val < 2 ^ 2 from a.isLt), or_shiftLeft (show _ < 2 ^ 4 by omega),
    or_shiftLeft (show _ < 2 ^ 6 by omega)]
  omega

theorem blockScalesQ3K_low (c : ChoiceQ3K) (hk : k < 8) :
    byteAt (blockScalesQ3K c) k =
      ((c.ls k).val &&& 0xF) ||| (((c.ls (k + 8)).val &&& 0xF) <<< 4) := by
  interval_cases k <;> rfl

theorem blockScalesQ3K_high (c : ChoiceQ3K) (hk : k < 4) :
    byteAt (blockScalesQ3K c) (8 + k) =
      (((c.ls k).val >>> 4) ||| (((c.ls (k + 4)).val >>> 4) <<< 2) |||
        (((c.ls (k + 8)).val >>> 4) <<< 4) ||| (((c.ls (k + 12)).val >>> 4) <<< 6)) := by
  have hzero : byteAt (blockScalesQ3K c) (8 + k) =
      (0 ||| (((c.ls k).val >>> 4) <<< 0) ||| (((c.ls (k + 4)).val >>> 4) <<< 2) |||
        (((c.ls (k + 8)).val >>> 4) <<< 4) ||| (((c.ls (k + 12)).val >>> 4) <<< 6)) := by
    interval_cases k <;> rfl
  rw [hzero, Nat.zero_or, Nat.shiftLeft_zero]

/-- The high bits of scale `4 * i + k` are the `i`-th pair of its byte. -/
theorem blockScalesQ3K_pair (c : ChoiceQ3K) (hk : k < 4) (hi : i < 4) :
    ((byteAt (blockScalesQ3K c) (8 + k) >>> (2 * i)) &&& 3) = (c.ls (4 * i + k)).val >>> 4 := by
  rw [blockScalesQ3K_high c hk]
  have hsplit := pairs_split ⟨_, highBits_lt (c.ls k)⟩ ⟨_, highBits_lt (c.ls (k + 4))⟩
    ⟨_, highBits_lt (c.ls (k + 8))⟩ ⟨_, highBits_lt (c.ls (k + 12))⟩ ⟨i, hi⟩
  dsimp only at hsplit
  rw [hsplit]
  interval_cases i
  · rw [Nat.mul_zero, Nat.zero_add]
    rfl
  · rw [Nat.add_comm (4 * 1) k]
    rfl
  · rw [Nat.add_comm (4 * 2) k]
    rfl
  · rw [Nat.add_comm (4 * 3) k]
    rfl

theorem blockScalesQ3K_lt (c : ChoiceQ3K) (hk : k < 12) : byteAt (blockScalesQ3K c) k < 256 := by
  by_cases hlow : k < 8
  · rw [blockScalesQ3K_low c hlow]
    exact (lowHalves_split _ _).2.2
  · obtain ⟨i, rfl⟩ := Nat.exists_eq_add_of_le (Nat.le_of_not_lt hlow)
    rw [blockScalesQ3K_high c (by omega)]
    exact pairs_lt ⟨_, highBits_lt _⟩ ⟨_, highBits_lt _⟩ ⟨_, highBits_lt _⟩ ⟨_, highBits_lt _⟩

/-- The word arithmetic gives back the sixteen scales. -/
theorem unpackedScale_packed (c : ChoiceQ3K) {scales : Nat → Nat}
    (h : ∀ k < 12, scales k = byteAt (blockScalesQ3K c) k) (his : is < 16) :
    unpackedScale scales is = (c.ls is).val := by
  have hlt : ∀ k < 12, scales k < 256 := fun k hk => h k hk ▸ blockScalesQ3K_lt c hk
  obtain ⟨w, k, hw, hk, rfl⟩ : ∃ w k, w < 4 ∧ k < 4 ∧ is = 4 * w + k :=
    ⟨is / 4, is % 4, by omega, by omega, by omega⟩
  have hbyte : ∀ i < 3, wordByte (scaleWord scales i) k = byteAt (blockScalesQ3K c) (4 * i + k) :=
    fun i hi => (wordByte_scaleWord hlt hi hk).trans (h _ (by omega))
  have hpair := fun i hi => blockScalesQ3K_pair c (i := i) hk hi
  have hfirst := blockScalesQ3K_low c (k := 4 * 0 + k) (by omega)
  have hsecond := blockScalesQ3K_low c (k := 4 * 1 + k) (by omega)
  unfold unpackedScale
  rw [show (4 * w + k) / 4 = w by omega, show (4 * w + k) % 4 = k by omega]
  interval_cases w
  · have hmasks := wordByte_masks (r := 0) (s := 2 * 0) (scaleWord scales 0) (scaleWord scales 2)
      (by omega) (by omega) hk
    refine Eq.trans ?_ (hmasks.trans ?_)
    · rfl
    · rw [hbyte 0 (by omega), hbyte 2 (by omega), hpair 0 (by omega), hfirst,
        (lowHalves_split _ _).1]
      exact halves_join _
  · have hmasks := wordByte_masks (r := 0) (s := 2 * 1) (scaleWord scales 1) (scaleWord scales 2)
      (by omega) (by omega) hk
    refine Eq.trans ?_ (hmasks.trans ?_)
    · rfl
    · rw [hbyte 1 (by omega), hbyte 2 (by omega), hpair 1 (by omega), hsecond,
        (lowHalves_split _ _).1]
      exact halves_join _
  · have hmasks := wordByte_masks (r := 4) (s := 2 * 2) (scaleWord scales 0) (scaleWord scales 2)
      (by omega) (by omega) hk
    refine Eq.trans ?_ (hmasks.trans ?_)
    · rfl
    · rw [hbyte 0 (by omega), hbyte 2 (by omega), hpair 2 (by omega), hfirst,
        (lowHalves_split _ _).2.1, show 4 * 0 + k + 8 = 4 * 2 + k by omega]
      exact halves_join _
  · have hmasks := wordByte_masks (r := 4) (s := 2 * 3) (scaleWord scales 1) (scaleWord scales 2)
      (by omega) (by omega) hk
    refine Eq.trans ?_ (hmasks.trans ?_)
    · rfl
    · rw [hbyte 1 (by omega), hbyte 2 (by omega), hpair 3 (by omega), hsecond,
        (lowHalves_split _ _).2.1, show 4 * 1 + k + 8 = 4 * 3 + k by omega]
      exact halves_join _

theorem BlockQ3K.ofBytes_eq (raw : List Nat) :
    (BlockQ3K.ofBytes raw).d = halfAt raw 108 ∧
      (∀ i, (BlockQ3K.ofBytes raw).hmask i = byteAt raw i) ∧
      (∀ k, (BlockQ3K.ofBytes raw).qs k = byteAt raw (32 + k)) ∧
      ∀ k, (BlockQ3K.ofBytes raw).scales k = byteAt raw (96 + k) :=
  ⟨rfl, fun _ => rfl, fun _ => rfl, fun _ => rfl⟩

theorem ofBytes_packBlockQ3K (c : ChoiceQ3K) :
    (BlockQ3K.ofBytes (packBlockQ3K c)).d = c.d.val ∧
      (∀ i < 32, (BlockQ3K.ofBytes (packBlockQ3K c)).hmask i =
        byteAt (hmaskLoop c 256).hmask i) ∧
      (∀ k < 64, (BlockQ3K.ofBytes (packBlockQ3K c)).qs k =
        byteAt (packQs fun e => lowCode (c.localL e).val) k) ∧
      ∀ k < 12, (BlockQ3K.ofBytes (packBlockQ3K c)).scales k = byteAt (blockScalesQ3K c) k := by
  have hmask := (hmaskLoop_spec c (Nat.le_refl 256)).2.2.1
  have hqs := packQs_length fun e => lowCode (c.localL e).val
  have hscales : (blockScalesQ3K c).length = 12 := rfl
  obtain ⟨hd, hread, hcodes, hsubs⟩ := BlockQ3K.ofBytes_eq (packBlockQ3K c)
  have hbytes : packBlockQ3K c = (hmaskLoop c 256).hmask ++
      (packQs (fun e => lowCode (c.localL e).val) ++ (blockScalesQ3K c ++ halfBytes c.d)) := by
    unfold packBlockQ3K
    rfl
  refine ⟨?_, fun i hi => ?_, fun k hk => ?_, fun k hk => ?_⟩
  · rw [hd, hbytes, show 108 = 32 + (64 + (12 + 0)) from rfl, halfAt_skip hmask, halfAt_skip hqs,
      halfAt_skip hscales, ← List.append_nil (halfBytes c.d), halfAt_bytes]
  · rw [hread, hbytes, byteAt_keep (by rw [hmask]; exact hi)]
  · rw [hcodes, hbytes, byteAt_skip hmask, byteAt_keep (by rw [hqs]; exact hk)]
  · rw [hsubs, hbytes, show 96 + k = 32 + (64 + k) by omega, byteAt_skip hmask, byteAt_skip hqs,
      byteAt_keep (by rw [hscales]; exact hk)]

theorem and_two_pow_eq_zero (a i : Nat) : a &&& 2 ^ i = 0 ↔ a.testBit i = false := by
  constructor
  · intro h
    have hbit := congrArg (Nat.testBit · i) h
    simpa [Nat.testBit_and, Nat.testBit_two_pow_self] using hbit
  · intro h
    apply Nat.eq_of_testBit_eq
    intro j
    rw [Nat.testBit_and, Nat.testBit_two_pow, Nat.zero_testBit]
    by_cases hij : i = j
    · rw [← hij, h, Bool.false_and]
    · rw [decide_eq_false hij, Bool.and_false]

/-- The bit of `hmask` and the low bits make the signed code. -/
theorem signedCode (c : ChoiceQ3K) (he : e < 256) :
    ((lowCode (c.localL e).val : Nat) : Int) -
      (if byteAt (hmaskLoop c 256).hmask (e % 32) &&& 1 <<< (e / 32) = 0 then 4 else 0) =
        (c.localL e).val - 4 := by
  have hbit := (hmaskLoop_spec c (Nat.le_refl 256)).2.2.2 (e % 32) (by omega) (e / 32) (by omega)
  rw [show 32 * (e / 32) + e % 32 = e by omega, decide_eq_true he, Bool.true_and] at hbit
  have htest : byteAt (hmaskLoop c 256).hmask (e % 32) &&& 1 <<< (e / 32) = 0 ↔
      ¬ 3 < (c.localL e).val := by
    rw [Nat.one_shiftLeft, and_two_pow_eq_zero, hbit, decide_eq_false_iff_not]
  have hlt := (c.localL e).isLt
  unfold lowCode
  by_cases hcode : 3 < (c.localL e).val
  · rw [if_pos hcode, if_neg (fun h => htest.mp h hcode)]
    omega
  · rw [if_neg hcode, if_pos (htest.mpr hcode)]

/-- Q3_K: each element is `d * sc * l` for the signed scale of its sub-block of 16 and its
signed code. -/
theorem dequantQ3K_packed (c : ChoiceQ3K) (he : e < 256) :
    (dequantQ3K toF32 (BlockQ3K.ofBytes (packBlockQ3K c)))[e]? =
      some (centred toF32 c.d.val (c.ls (e / 16)).val ((c.localL e).val - 4)) := by
  obtain ⟨hd, hmask, hqs, hscales⟩ := ofBytes_packBlockQ3K c
  have hbits : ∀ e, lowCode (c.localL e).val < 4 := by
    intro e
    have hlt := (c.localL e).isLt
    unfold lowCode
    split <;> omega
  unfold dequantQ3K
  dsimp only
  simp only [rows_map]
  rw [List.getElem?_map, List.getElem?_range he, Option.map_some, hd, hmask _ (by omega),
    hqs _ (by omega), unpackedScale_packed c hscales (by omega),
    packQs_code _ hbits (by omega) (by omega) (by omega),
    show 8 * (e / (4 * (2 * 16))) + 2 * (e % (4 * (2 * 16)) / (2 * 16)) +
      e % (4 * (2 * 16)) % (2 * 16) / 16 = e / 16 by omega,
    show 128 * (e / (4 * (2 * 16))) + 32 * (e % (4 * (2 * 16)) / (2 * 16)) +
      (e % (4 * (2 * 16)) % (2 * 16) % 16 + 16 * (e % (4 * (2 * 16)) % (2 * 16) / 16)) = e by omega,
    show e % (4 * (2 * 16)) % (2 * 16) % 16 + 16 * (e % (4 * (2 * 16)) % (2 * 16) / 16) = e % 32
      by omega,
    show 4 * (e / (4 * (2 * 16))) + e % (4 * (2 * 16)) / (2 * 16) = e / 32 by omega,
    signedCode c he]

/-- Each of the three packed blocks decodes, element by element, to what its quantiser
chose. -/
theorem packed_blocks_decode (c4 : ChoiceQ4K) (c3 : ChoiceQ3K) (c2 : ChoiceQ2K) (e : Fin 256) :
    (dequantQ4K toF32 (BlockQ4K.ofBytes (packBlockQ4K c4)))[e.val]? =
        some (toF32 c4.d * ((c4.ls (e / 32)).val : R) * ((c4.localL e).val : R) -
          toF32 c4.dmin * ((c4.lm (e / 32)).val : R)) ∧
      (dequantQ3K toF32 (BlockQ3K.ofBytes (packBlockQ3K c3)))[e.val]? =
        some (toF32 c3.d * (((c3.ls (e / 16)).val : R) - 32) *
          (((c3.localL e).val - 4 : Int) : R)) ∧
      (dequantQ2K toF32 (BlockQ2K.ofBytes (packBlockQ2K c2)))[e.val]? =
        some (toF32 c2.d * ((c2.ls (e / 16)).val : R) * ((c2.localL e).val : R) -
          toF32 c2.dmin * ((c2.lm (e / 16)).val : R)) :=
  ⟨dequantQ4K_packed toF32 c4 e.isLt, dequantQ3K_packed toF32 c3 e.isLt,
    dequantQ2K_packed toF32 c2 e.isLt⟩

end RoundTrip

end Flambeau.Quant
