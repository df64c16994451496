import Mathlib

namespace Flambeau.Quant

inductive GgmlDType where
  | f32
  | f16
  | bf16
  | q4_0
  | q4_1
  | q5_0
  | q5_1
  | q8_0
  | q8_1
  | q2k
  | q3k
  | q4k
  | q5k
  | q6k
  | q8k
  | mxfp4
  | iq4Xs
  | iq3Xxs
  | iq4Nl
  | iq3S
  | iq2Xxs
  | iq2Xs
  | iq2S
  | iq1S
  | iq1M
deriving DecidableEq

inductive DTypeError where
  | unknownWireId (id : Nat)
  | unsupportedWireId (id : Nat)
deriving DecidableEq

namespace GgmlDType

def fromWire : Nat → Except DTypeError GgmlDType
  | 0 => .ok f32
  | 1 => .ok f16
  | 2 => .ok q4_0
  | 3 => .ok q4_1
  | 6 => .ok q5_0
  | 7 => .ok q5_1
  | 8 => .ok q8_0
  | 9 => .ok q8_1
  | 10 => .ok q2k
  | 11 => .ok q3k
  | 12 => .ok q4k
  | 13 => .ok q5k
  | 14 => .ok q6k
  | 15 => .ok q8k
  | 30 => .ok bf16
  | 16 => .ok iq2Xxs
  | 17 => .ok iq2Xs
  | 18 => .ok iq3Xxs
  | 19 => .ok iq1S
  | 20 => .ok iq4Nl
  | 21 => .ok iq3S
  | 22 => .ok iq2S
  | 23 => .ok iq4Xs
  | 29 => .ok iq1M
  | 39 => .ok mxfp4
  | u =>
    if 24 ≤ u ∧ u ≤ 28 ∨ 31 ≤ u ∧ u ≤ 38 then .error (.unsupportedWireId u)
    else .error (.unknownWireId u)

def toWire : GgmlDType → Nat
  | f32 => 0
  | f16 => 1
  | q4_0 => 2
  | q4_1 => 3
  | q5_0 => 6
  | q5_1 => 7
  | q8_0 => 8
  | q8_1 => 9
  | q2k => 10
  | q3k => 11
  | q4k => 12
  | q5k => 13
  | q6k => 14
  | q8k => 15
  | bf16 => 30
  | iq2Xxs => 16
  | iq2Xs => 17
  | iq3Xxs => 18
  | iq1S => 19
  | iq4Nl => 20
  | iq3S => 21
  | iq2S => 22
  | iq4Xs => 23
  | iq1M => 29
  | mxfp4 => 39

/-- `QK_K`. -/
def qkK : Nat := 256

/-- Elements in one block. -/
def blockSize : GgmlDType → Nat
  | f32 | f16 | bf16 => 1
  | q4_0 | q4_1 | q5_0 | q5_1 | q8_0 | q8_1 => 32
  | q2k | q3k | q4k | q5k | q6k | q8k => qkK
  | iq4Xs | iq3Xxs | iq3S | iq2Xxs | iq2Xs | iq2S | iq1S | iq1M => qkK
  | iq4Nl => 32
  | mxfp4 => 32

/-- Bytes of one block. -/
def typeSize : GgmlDType → Nat
  | f32 => 4
  | f16 | bf16 => 2
  | q4_0 => 18
  | q4_1 => 20
  | q5_0 => 22
  | q5_1 => 24
  | q8_0 => 34
  | q8_1 => 36
  | q2k => qkK / 16 + qkK / 4 + 4
  | q3k => qkK / 8 + qkK / 4 + 12 + 2
  | q4k => 2 + 2 + 12 + qkK / 2
  | q5k => 2 + 2 + 12 + qkK / 8 + qkK / 2
  | q6k => qkK / 2 + qkK / 4 + qkK / 16 + 2
  | q8k => 4 + qkK + qkK / 16 * 2
  | iq4Xs => 2 + 2 + qkK / 64 + qkK / 2
  | iq3Xxs => 2 + 3 * qkK / 8
  | iq4Nl => 2 + 32 / 2
  | iq3S => 2 + qkK / 4 + qkK / 32 + qkK / 8 + qkK / 64
  | iq2Xxs => 2 + 2 * (qkK / 8)
  | iq2Xs => 2 + 2 * (qkK / 8) + qkK / 32
  | iq2S => 2 + qkK / 4 + qkK / 32 + qkK / 32
  | iq1S => 2 + qkK / 8 + 2 * (qkK / 32)
  | iq1M => qkK / 8 + qkK / 16 + qkK / 32
  | mxfp4 => 1 + 32 / 2

theorem fromWire_toWire (t : GgmlDType) : fromWire t.toWire = .ok t := by
  cases t <;> rfl

theorem toWire_lt (t : GgmlDType) : t.toWire < 2 ^ 32 := by
  cases t <;> decide

/-- A code that is accepted is the code of the type it gives. -/
theorem toWire_fromWire {u : Nat} {t : GgmlDType} (h : fromWire u = .ok t) : t.toWire = u := by
  unfold fromWire at h
  split at h
  all_goals first
    | (cases h; rfl)
    | (split at h <;> cases h)

theorem blockSize_pos (t : GgmlDType) : 0 < t.blockSize := by
  cases t <;> decide

theorem typeSize_pos (t : GgmlDType) : 0 < t.typeSize := by
  cases t <;> decide

end GgmlDType
end Flambeau.Quant
