import Flambeau.Quant.IqTables
import Flambeau.Systems.Strides
import Mathlib.Algebra.Order.Field.Rat
import Mathlib.Tactic.Ring
import Mathlib.Tactic.Linarith
import Mathlib.Tactic.NormNum
import Mathlib.Data.List.Basic

namespace Flambeau.Quant
open Systems

/-- An `f32` up to the sign of zero. The products below have at most 22 significant bits,
so that the decoders round none of them. -/
inductive F32 where
  | finite (q : Rat)
  | inf (negative : Bool)
  | nan
deriving Repr, DecidableEq

namespace F32

def mul : F32 → F32 → F32
  | .finite p, .finite q => .finite (p * q)
  | .finite p, .inf n => if p = 0 then .nan else .inf (n != decide (p < 0))
  | .inf n, .finite p => if p = 0 then .nan else .inf (n != decide (p < 0))
  | .inf m, .inf n => .inf (m != n)
  | .nan, _ => .nan
  | _, .nan => .nan

/-- `half::f16::from_le_bytes` and `to_f32`. -/
def ofHalf (lo hi : UInt8) : F32 :=
  let bits := lo.toNat + 256 * hi.toNat
  let mantissa := bits % 1024
  let exponent := bits / 1024 % 32
  let sign : Rat := if bits / 32768 = 1 then -1 else 1
  if exponent = 31 then if mantissa = 0 then .inf (bits / 32768 = 1) else .nan
  else if exponent = 0 then .finite (sign * mantissa / 2 ^ 24)
  else .finite (sign * (1024 + mantissa) * 2 ^ exponent / 2 ^ 25)

/-- A number that its scale does not swallow. -/
def Significant (d : F32) : Prop := ∃ q, q ≠ 0 ∧ d = .finite q

end F32

/-- `d * (0.5 + nib) * 0.25 * grid * s`. -/
def iq2Element (d : F32) (nib grid : Nat) (negative : Bool) : F32 :=
  let db := (d.mul (.finite (1 / 2 + nib))).mul (.finite (1 / 4))
  (db.mul (.finite grid)).mul (.finite (if negative then -1 else 1))

/-- `grid.to_le_bytes()[j]`. -/
def gridByte (entry j : Nat) : Nat := entry / 2 ^ (8 * j) % 256

/-- The eight elements of a codebook entry under their sign byte. -/
def iq2Group (d : F32) (nib : Nat) (group : Nat × Nat) : List F32 :=
  (List.range 8).map fun j => iq2Element d nib (gridByte group.1 j) (group.2.testBit j)

/-- The loop that `dequant_iq2_xs` and `dequant_iq2_s` share: two sub-blocks of 32
elements for each scale byte read, the low nibble for the first. -/
def dequantIq2 (d : F32) (scales : Nat → Nat) (groups : Nat → Nat → Nat → Nat × Nat) :
    List F32 :=
  (List.range 4).flatMap fun step =>
    let ib32 := 2 * step
    let scByte := scales (ib32 / 2)
    ((List.range 4).flatMap fun l => iq2Group d (scByte % 16) (groups ib32 0 l)) ++
      (List.range 4).flatMap fun l => iq2Group d (scByte / 16) (groups ib32 1 l)

/-- What lane `lane` of the matrix-vector kernel multiplies in its step `grp`: the
weight, and the element of the activation it meets. -/
def mmvqIq2 (d : F32) (scales : Nat → Nat) (groups : Nat → Nat → Nat × Nat) (lane grp : Nat) :
    Nat × F32 :=
  let subHi := lane / 32
  let l := lane % 32 / 8
  let jIn8 := lane % 8
  let ib32 := 2 * grp + subHi
  let scByte := scales (ib32 / 2)
  let scNibble := if ib32 % 2 = 1 then scByte / 16 else scByte % 16
  let group := groups ib32 l
  (32 * ib32 + (8 * l + jIn8), iq2Element d scNibble (gridByte group.1 jIn8) (group.2.testBit jIn8))

/-- A block's bytes. -/
abbrev RawBlock := Nat → UInt8

namespace Iq2Xs

/-- `d`, 32 words of `qs`, 8 bytes of `scales`. -/
def d (raw : RawBlock) : F32 := .ofHalf (raw 0) (raw 1)

def scales (raw : RawBlock) (k : Nat) : Nat := (raw (66 + k)).toNat

/-- Nine bits of codebook index, seven of sign. -/
def entry (q : Nat) : Nat × Nat :=
  (iq2xsGrid.getD (q % 512) 0, ksignsIq2xs.getD (q / 512 % 128) 0)

def dequantGroup (raw : RawBlock) (ib32 half l : Nat) : Nat × Nat :=
  let qbase := 2 + 16 * (ib32 / 2) + 8 * half
  entry ((raw (qbase + 2 * l)).toNat + 256 * (raw (qbase + 2 * l + 1)).toNat)

def mmvqGroup (raw : RawBlock) (ib32 l : Nat) : Nat × Nat :=
  let qp := 2 + (8 * ib32 + 2 * l)
  entry ((raw qp).toNat + 256 * (raw (qp + 1)).toNat)

theorem group_eq (raw : RawBlock) (step half l : Nat) :
    dequantGroup raw (2 * step) half l = mmvqGroup raw (2 * step + half) l := by
  have hoffset : 2 + 16 * (2 * step / 2) + 8 * half + 2 * l =
      2 + (8 * (2 * step + half) + 2 * l) := by omega
  unfold dequantGroup mmvqGroup
  dsimp only
  rw [hoffset]

end Iq2Xs

namespace Iq2S

/-- `d`, 64 bytes of `qs`, 8 of `qh`, 8 of `scales`. -/
def d (raw : RawBlock) : F32 := .ofHalf (raw 0) (raw 1)

def scales (raw : RawBlock) (k : Nat) : Nat := (raw (74 + k)).toNat

/-- Ten bits of codebook index, the highest two from `qh`. -/
def idx (low qh l : Nat) : Nat := low ||| (qh <<< (8 - 2 * l) &&& 0x300)

def dequantGroup (raw : RawBlock) (ib32 half l : Nat) : Nat × Nat :=
  let qsP := 4 * ib32 + 4 * half
  let sgnP := 32 + 4 * ib32 + 4 * half
  let qh := (raw (66 + ib32 + half)).toNat
  (iq2sGrid.getD (idx (raw (2 + qsP + l)).toNat qh l) 0, (raw (2 + sgnP + l)).toNat)

def mmvqGroup (raw : RawBlock) (ib32 l : Nat) : Nat × Nat :=
  let qh := (raw (66 + ib32)).toNat
  (iq2sGrid.getD (idx (raw (2 + (4 * ib32 + l))).toNat qh l) 0,
    (raw (2 + (32 + 4 * ib32 + l))).toNat)

theorem group_eq (raw : RawBlock) (step half l : Nat) :
    dequantGroup raw (2 * step) half l = mmvqGroup raw (2 * step + half) l := by
  have hqs : 2 + (4 * (2 * step) + 4 * half) + l = 2 + (4 * (2 * step + half) + l) := by omega
  have hsigns : 2 + (32 + 4 * (2 * step) + 4 * half) + l =
      2 + (32 + 4 * (2 * step + half) + l) := by omega
  unfold dequantGroup mmvqGroup
  dsimp only
  rw [hqs, hsigns, Nat.add_assoc 66]

end Iq2S

def dequantIq2Xs (raw : RawBlock) : List F32 :=
  dequantIq2 (Iq2Xs.d raw) (Iq2Xs.scales raw) (Iq2Xs.dequantGroup raw)

def dequantIq2S (raw : RawBlock) : List F32 :=
  dequantIq2 (Iq2S.d raw) (Iq2S.scales raw) (Iq2S.dequantGroup raw)

def mmvqIq2Xs (raw : RawBlock) (lane grp : Nat) : Nat × F32 :=
  mmvqIq2 (Iq2Xs.d raw) (Iq2Xs.scales raw) (Iq2Xs.mmvqGroup raw) lane grp

def mmvqIq2S (raw : RawBlock) (lane grp : Nat) : Nat × F32 :=
  mmvqIq2 (Iq2S.d raw) (Iq2S.scales raw) (Iq2S.mmvqGroup raw) lane grp

/-- The layout the format is read from: one nibble for each 16 elements, two nibbles a
byte. -/
def ggmlNibble (scales : Nat → Nat) (e : Nat) : Nat :=
  if e / 16 % 2 = 0 then scales (e / 32) % 16 else scales (e / 32) / 16

/-- The nibble the decoders use. -/
def readNibble (scales : Nat → Nat) (e : Nat) : Nat :=
  if e / 32 % 2 = 0 then scales (e / 64) % 16 else scales (e / 64) / 16

/-- Element `e` under a nibble of one's choice. -/
def iq2At (d : F32) (groups : Nat → Nat → Nat × Nat) (e nib : Nat) : F32 :=
  let group := groups (e / 32) (e / 8 % 4)
  iq2Element d nib (gridByte group.1 (e % 8)) (group.2.testBit (e % 8))

/-- Both decoders give each element of the block the value of the format. -/
def Iq2Decodes (d : F32) (scales : Nat → Nat) (groups : Nat → Nat → Nat × Nat)
    (dequant : List F32) (mmvq : Nat → Nat → Nat × F32) : Prop :=
  (∀ e < 256, dequant[e]? = some (iq2At d groups e (ggmlNibble scales e))) ∧
    ∀ lane < 64, ∀ grp < 4, dequant[(mmvq lane grp).1]? = some (mmvq lane grp).2

/-- All sixteen nibbles are the first. -/
def FlatScales (scales : Nat → Nat) : Prop :=
  ∀ k < 8, scales k % 16 = scales 0 % 16 ∧ scales k / 16 = scales 0 % 16

theorem F32.mul_inf (n : Bool) (h : 0 < q) : F32.mul (.inf n) (.finite q) = .inf n := by
  have hneg : decide (q < 0) = false := decide_eq_false (by linarith)
  simp only [F32.mul, if_neg h.ne', hneg, Bool.bne_false]

/-- A scale shows in an element exactly when `d` is finite and not 0. -/
theorem iq2Element_inj (hgrid : grid ≠ 0) :
    iq2Element d nib grid negative = iq2Element d nib' grid negative ↔
      (d.Significant → nib = nib') := by
  have hpos : ∀ k : Nat, (0 : Rat) < 1 / 2 + k := by
    intro k
    have hk : (0 : Rat) ≤ k := Nat.cast_nonneg k
    linarith
  unfold iq2Element
  cases d with
  | nan =>
    simp [F32.Significant, F32.mul]
  | inf n =>
    rw [F32.mul_inf n (hpos nib), F32.mul_inf n (hpos nib')]
    simp [F32.Significant]
  | finite q =>
    have hsign : (if negative = true then (-1 : Rat) else 1) ≠ 0 := by split <;> norm_num
    have hg : (grid : Rat) ≠ 0 := Nat.cast_ne_zero.mpr hgrid
    simp only [F32.mul, F32.finite.injEq, F32.Significant]
    rw [mul_left_inj' hsign, mul_left_inj' hg, mul_left_inj' (by norm_num : (1 / 4 : Rat) ≠ 0)]
    constructor
    · rintro h ⟨p, hp, rfl⟩
      have hsum := mul_left_cancel₀ hp h
      exact Nat.cast_injective (add_left_cancel hsum)
    · intro h
      by_cases hq : q = 0
      · rw [hq, zero_mul, zero_mul]
      · rw [h ⟨q, hq, rfl⟩]

/-- The loops of a block of 256: steps, halves, groups and elements. -/
theorem block_loops (g : Nat → α) :
    (List.range 256).map g = (List.range 4).flatMap fun step => (List.range 2).flatMap fun half =>
      (List.range 4).flatMap fun l => (List.range 8).map fun j =>
        g (64 * step + 32 * half + 8 * l + j) := by
  rw [List.map_eq_flatMap, show 256 = 4 * 64 from rfl, range_grid]
  congr 1
  funext step
  rw [show 64 = 2 * 32 from rfl, range_grid]
  congr 1
  funext half
  rw [show 32 = 4 * 8 from rfl, range_grid]
  congr 1
  funext l
  rw [← List.map_eq_flatMap]
  apply List.map_congr_left
  intro j _
  congr 1
  omega

/-- Block contents come out in order, each under the nibble its sub-block reads. -/
theorem dequantIq2_eq (d : F32) (scales : Nat → Nat) (groups : Nat → Nat → Nat → Nat × Nat)
    (read : Nat → Nat → Nat × Nat)
    (hread : ∀ step half l, groups (2 * step) half l = read (2 * step + half) l) :
    dequantIq2 d scales groups =
      (List.range 256).map fun e => iq2At d read e (readNibble scales e) := by
  rw [block_loops]
  unfold dequantIq2
  apply List.flatMap_congr
  intro step _
  have hhalf : ∀ half nib, half < 2 →
      (∀ e, e / 64 = step → e / 32 % 2 = half → readNibble scales e = nib) →
      ((List.range 4).flatMap fun l => iq2Group d nib (groups (2 * step) half l)) =
        (List.range 4).flatMap fun l => (List.range 8).map fun j =>
          iq2At d read (64 * step + 32 * half + 8 * l + j)
            (readNibble scales (64 * step + 32 * half + 8 * l + j)) := by
    intro half nib hlt hnib
    apply List.flatMap_congr
    intro l hl
    have hl := List.mem_range.mp hl
    unfold iq2Group
    apply List.map_congr_left
    intro j hj
    have hj := List.mem_range.mp hj
    rw [hnib _ (by omega) (by omega), hread]
    unfold iq2At
    have hsub : (64 * step + 32 * half + 8 * l + j) / 32 = 2 * step + half := by omega
    have hgroup : (64 * step + 32 * half + 8 * l + j) / 8 % 4 = l := by omega
    have hat : (64 * step + 32 * half + 8 * l + j) % 8 = j := by omega
    rw [hsub, hgroup, hat]
  have hstep : 2 * step / 2 = step := by omega
  have htwo : List.range 2 = [0, 1] := rfl
  rw [htwo, List.flatMap_cons, List.flatMap_cons, List.flatMap_nil, List.append_nil]
  dsimp only
  rw [hstep, hhalf 0 _ (by omega), hhalf 1 _ (by omega)]
  · intro e hblock hodd
    unfold readNibble
    rw [if_neg (by omega), hblock]
  · intro e hblock heven
    unfold readNibble
    rw [if_pos heven, hblock]

/-- A lane's element is in the block. -/
theorem mmvqIq2_lt (d : F32) (scales : Nat → Nat) (groups : Nat → Nat → Nat × Nat)
    (hlane : lane < 64) (hgrp : grp < 4) : (mmvqIq2 d scales groups lane grp).1 < 256 := by
  unfold mmvqIq2
  dsimp only
  omega

/-- A lane reads the nibble that the loop reads. -/
theorem mmvqIq2_eq (d : F32) (scales : Nat → Nat) (groups : Nat → Nat → Nat × Nat)
    (hlane : lane < 64) :
    (mmvqIq2 d scales groups lane grp).2 =
      iq2At d groups (mmvqIq2 d scales groups lane grp).1
        (readNibble scales (mmvqIq2 d scales groups lane grp).1) := by
  unfold mmvqIq2 iq2At readNibble
  dsimp only
  have hsub : (32 * (2 * grp + lane / 32) + (8 * (lane % 32 / 8) + lane % 8)) / 32 =
      2 * grp + lane / 32 := by omega
  have hgroup : (32 * (2 * grp + lane / 32) + (8 * (lane % 32 / 8) + lane % 8)) / 8 % 4 =
      lane % 32 / 8 := by omega
  have hat : (32 * (2 * grp + lane / 32) + (8 * (lane % 32 / 8) + lane % 8)) % 8 = lane % 8 := by
    omega
  have hblock : (32 * (2 * grp + lane / 32) + (8 * (lane % 32 / 8) + lane % 8)) / 64 =
      (2 * grp + lane / 32) / 2 := by omega
  rw [hsub, hgroup, hat, hblock]
  by_cases hodd : (2 * grp + lane / 32) % 2 = 1
  · rw [if_pos hodd, if_neg (by omega)]
  · rw [if_neg hodd, if_pos (by omega)]

/-- The nibbles read and the nibbles of the format are the same in all 256 elements only if
they are all one. -/
theorem nibbles_agree_iff (scales : Nat → Nat) :
    (∀ e < 256, readNibble scales e = ggmlNibble scales e) ↔ FlatScales scales := by
  constructor
  · intro h k
    induction k using Nat.strong_induction_on with
    | h k ih =>
      intro hk
      have hlow := h (32 * k) (by omega)
      have hhigh := h (32 * k + 16) (by omega)
      have hread : readNibble scales (32 * k + 16) = readNibble scales (32 * k) := by
        unfold readNibble
        rw [show (32 * k + 16) / 32 = 32 * k / 32 by omega,
          show (32 * k + 16) / 64 = 32 * k / 64 by omega]
      have hfirst : readNibble scales (32 * k) = scales 0 % 16 := by
        by_cases hzero : k = 0
        · subst hzero
          rfl
        · have hhalf := ih (k / 2) (by omega) (by omega)
          unfold readNibble
          rw [show 32 * k / 64 = k / 2 by omega]
          split
          · exact hhalf.1
          · exact hhalf.2
      have hlo : ggmlNibble scales (32 * k) = scales k % 16 := by
        unfold ggmlNibble
        rw [if_pos (by omega), Nat.mul_div_cancel_left k (by omega)]
      have hhi : ggmlNibble scales (32 * k + 16) = scales k / 16 := by
        unfold ggmlNibble
        rw [if_neg (by omega), show (32 * k + 16) / 32 = k by omega]
      rw [hlo, hfirst] at hlow
      rw [hhi, hread, hfirst] at hhigh
      exact ⟨hlow.symm, hhigh.symm⟩
  · intro h e he
    have hread : readNibble scales e = scales 0 % 16 := by
      have hk := h (e / 64) (by omega)
      unfold readNibble
      split
      · exact hk.1
      · exact hk.2
    have hggml : ggmlNibble scales e = scales 0 % 16 := by
      have hk := h (e / 32) (by omega)
      unfold ggmlNibble
      split
      · exact hk.1
      · exact hk.2
    rw [hread, hggml]

/-- Where no codebook byte is 0, a block decodes to the format's values exactly when its
scales are all equal or `d` swallows them. -/
theorem iq2Decodes_iff (d : F32) (scales : Nat → Nat) (groups : Nat → Nat → Nat → Nat × Nat)
    (read : Nat → Nat → Nat × Nat)
    (hread : ∀ step half l, groups (2 * step) half l = read (2 * step + half) l)
    (hgrid : ∀ ib32 l j, l < 4 → j < 8 → gridByte (read ib32 l).1 j ≠ 0) :
    Iq2Decodes d scales read (dequantIq2 d scales groups) (mmvqIq2 d scales read) ↔
      (d.Significant → FlatScales scales) := by
  have hget : ∀ e, e < 256 → (dequantIq2 d scales groups)[e]? =
      some (iq2At d read e (readNibble scales e)) := by
    intro e he
    rw [dequantIq2_eq d scales groups read hread, List.getElem?_map,
      List.getElem?_range he]
    rfl
  have hvalue : ∀ e, iq2At d read e (readNibble scales e) = iq2At d read e (ggmlNibble scales e) ↔
      (d.Significant → readNibble scales e = ggmlNibble scales e) := by
    intro e
    exact iq2Element_inj (hgrid _ _ _ (Nat.mod_lt _ (by omega)) (Nat.mod_lt _ (by omega)))
  constructor
  · rintro ⟨h, -⟩ hd
    rw [← nibbles_agree_iff]
    intro e he
    have hat := h e he
    rw [hget e he, Option.some.injEq, hvalue] at hat
    exact hat hd
  · intro h
    refine ⟨fun e he => ?_, fun lane hlane grp hgrp => ?_⟩
    · rw [hget e he, Option.some.injEq, hvalue]
      exact fun hd => (nibbles_agree_iff scales).mpr (h hd) e he
    · rw [hget _ (mmvqIq2_lt d scales read hlane hgrp), mmvqIq2_eq d scales read hlane]

theorem iq2xsGrid_pos : ∀ g ∈ iq2xsGrid, ∀ j < 8, gridByte g j ≠ 0 := by
  decide +kernel

theorem iq2sGrid_pos : ∀ g ∈ iq2sGrid, ∀ j < 8, gridByte g j ≠ 0 := by
  decide +kernel

theorem getD_mem (xs : List α) (z : α) (h : i < xs.length) : xs.getD i z ∈ xs := by
  rw [List.getD_eq_getElem?_getD, List.getElem?_eq_getElem h]
  exact List.getElem_mem h

set_option maxRecDepth 4000 in
theorem iq2xsGrid_length : iq2xsGrid.length = 512 := rfl

theorem Iq2Xs.mmvqGroup_pos (raw : RawBlock) (ib32 l j : Nat) (hj : j < 8) :
    gridByte (Iq2Xs.mmvqGroup raw ib32 l).1 j ≠ 0 := by
  refine iq2xsGrid_pos _ (getD_mem _ _ ?_) j hj
  rw [iq2xsGrid_length]
  exact Nat.mod_lt _ (by omega)

theorem Iq2S.idx_lt (hlow : low < 256) : Iq2S.idx low qh l < 1024 := by
  have hhigh : qh <<< (8 - 2 * l) &&& 0x300 < 2 ^ 10 :=
    Nat.lt_of_le_of_lt Nat.and_le_right (by omega)
  exact Nat.or_lt_two_pow (by omega) hhigh

set_option maxRecDepth 8000 in
theorem iq2sGrid_length : iq2sGrid.length = 1024 := rfl

theorem Iq2S.mmvqGroup_pos (raw : RawBlock) (ib32 l j : Nat) (hj : j < 8) :
    gridByte (Iq2S.mmvqGroup raw ib32 l).1 j ≠ 0 := by
  refine iq2sGrid_pos _ (getD_mem _ _ ?_) j hj
  rw [iq2sGrid_length]
  exact Iq2S.idx_lt (raw _).toNat_lt

/-- The scale bytes from the fifth on are never read. -/
theorem upper_scales_unread (d : F32) (groups : Nat → Nat → Nat → Nat × Nat)
    (h : ∀ k < 4, scales k = scales' k) :
    dequantIq2 d scales groups = dequantIq2 d scales' groups := by
  unfold dequantIq2
  apply List.flatMap_congr
  intro step hstep
  have hstep := List.mem_range.mp hstep
  dsimp only
  rw [h _ (by omega)]

/-- An IQ2_XS and an IQ2_S block decode to the format's values, on the CPU and in the
kernel, exactly when their sixteen scales are all equal or `d` is 0 or not finite. -/
theorem iq2_decodes_iff (raw : RawBlock) :
    (Iq2Decodes (Iq2Xs.d raw) (Iq2Xs.scales raw) (Iq2Xs.mmvqGroup raw) (dequantIq2Xs raw)
        (mmvqIq2Xs raw) ↔ ((Iq2Xs.d raw).Significant → FlatScales (Iq2Xs.scales raw))) ∧
      (Iq2Decodes (Iq2S.d raw) (Iq2S.scales raw) (Iq2S.mmvqGroup raw) (dequantIq2S raw)
        (mmvqIq2S raw) ↔ ((Iq2S.d raw).Significant → FlatScales (Iq2S.scales raw))) :=
  ⟨iq2Decodes_iff _ _ _ _ (Iq2Xs.group_eq raw) fun ib32 l j _ => Iq2Xs.mmvqGroup_pos raw ib32 l j,
    iq2Decodes_iff _ _ _ _ (Iq2S.group_eq raw) fun ib32 l j _ => Iq2S.mmvqGroup_pos raw ib32 l j⟩

/-- A block whose `d` is 1 and whose first scale byte, the one at `base`, is 0x10. -/
def steppedBlock (base : Nat) : RawBlock := fun i =>
  if i = 1 then 0x3c else if i = base then 0x10 else 0

/-- Elements 16 to 31 of the block take the second nibble in the format and the first in
both decoders. -/
theorem second_nibble_missed :
    ¬ Iq2Decodes (Iq2Xs.d (steppedBlock 66)) (Iq2Xs.scales (steppedBlock 66))
        (Iq2Xs.mmvqGroup (steppedBlock 66)) (dequantIq2Xs (steppedBlock 66))
        (mmvqIq2Xs (steppedBlock 66)) ∧
      ¬ Iq2Decodes (Iq2S.d (steppedBlock 74)) (Iq2S.scales (steppedBlock 74))
        (Iq2S.mmvqGroup (steppedBlock 74)) (dequantIq2S (steppedBlock 74))
        (mmvqIq2S (steppedBlock 74)) := by
  constructor
  · rintro ⟨h, -⟩
    exact absurd (h 16 (by decide)) (by decide +kernel)
  · rintro ⟨h, -⟩
    exact absurd (h 16 (by decide)) (by decide +kernel)

end Flambeau.Quant
