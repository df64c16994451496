import Flambeau.Quant.GgufLayout

namespace Flambeau.Quant
open Systems

theorem Value.asU64_lt {v : Value} (h : v.asU64 = some n) : n < 2 ^ 64 := by
  unfold Value.asU64 at h
  split at h
  · rename_i v
    cases h
    exact v.toNat_lt
  · rename_i v
    cases h
    exact Nat.lt_of_lt_of_le v.toNat_lt (by decide)
  · rename_i v
    cases h
    exact Nat.lt_of_lt_of_le v.toNat_lt (by decide)
  · rename_i v
    cases h
    exact Nat.lt_of_lt_of_le v.toNat_lt (by decide)
  · rename_i v
    split at h
    · cases h
      have := v.toInt_lt
      omega
    · cases h
  · rename_i v
    split at h
    · cases h
      have := v.toInt_lt
      omega
    · cases h
  · cases h

theorem Header.alignment_lt (h : Header) : h.alignment < 2 ^ 64 := by
  unfold Header.alignment
  cases hvalue : (h.metadata "general.alignment").bind Value.asU64 with
  | none => decide
  | some n =>
    obtain ⟨v, -, hv⟩ := Option.bind_eq_some_iff.mp hvalue
    exact Value.asU64_lt hv

/-- Rounding up stays within twice the position or at the alignment. -/
theorem divCeil_mul_lt {a b n : Nat} (ha : 2 * a ≤ n) (hb : b < n) (hpos : 0 < b) : divCeil a b * b < n := by
  unfold divCeil
  by_cases hle : b ≤ a
  · have hmul := Nat.div_mul_le_self (a + b - 1) b
    omega
  · have hdiv : (a + b - 1) / b < 2 := by
      rw [Nat.div_lt_iff_lt_mul hpos]
      omega
    have hmul : (a + b - 1) / b * b ≤ 1 * b := Nat.mul_le_mul_right b (by omega)
    omega

/-- The metadata says that the alignment is zero. -/
def ZeroAligned (m : Machine) (input : List UInt8) : Prop :=
  ∃ header front rest, headerLayout m header front ∧ input = front ++ rest ∧ header.alignment = 0

/-- The parser of a mapped file reports or returns, unless it reaches a length field that
the machine has no room for, arrays nested deeper than the stack, or a zero alignment. -/
theorem parse_total_iff (m : Machine) (mmap : Mmap) :
    ((∃ file, parseGgufHeader m mmap = .ok file) ∨ ∃ e, parseGgufHeader m mmap = .err e) ↔
      ¬ headerTrips m mmap.bytes ∧ ¬ ZeroAligned m mmap.bytes := by
  have hreads := readHeader_reads m
  unfold parseGgufHeader
  cases hread : readHeader m mmap.bytes with
  | err e =>
    refine ⟨fun _ => ⟨fun htrips => ?_, ?_⟩, fun _ => .inr ⟨e, rfl⟩⟩
    · obtain ⟨f, hf⟩ := (hreads.fault mmap.bytes).mpr htrips
      rw [hread] at hf
      cases hf
    · rintro ⟨header, front, rest, hlayout, heq, -⟩
      have hok := (hreads.ok mmap.bytes header rest).mpr ⟨front, hlayout, heq⟩
      rw [hread] at hok
      cases hok
  | fault f =>
    refine ⟨fun h => ?_, fun h => absurd ((hreads.fault mmap.bytes).mp ⟨f, hread⟩) h.1⟩
    rcases h with ⟨_, h⟩ | ⟨_, h⟩ <;> cases h
  | ok result =>
    obtain ⟨header, rest⟩ := result
    obtain ⟨front, hlayout, hbytes⟩ := (hreads.ok mmap.bytes header rest).mp hread
    have hnot : ¬ headerTrips m mmap.bytes := fun htrips => by
      obtain ⟨f, hf⟩ := (hreads.fault mmap.bytes).mpr htrips
      rw [hread] at hf
      cases hf
    dsimp only
    split
    · rename_i hzero
      refine ⟨fun h => ?_, fun h => absurd ⟨header, front, rest, hlayout, hbytes, hzero⟩ h.2⟩
      rcases h with ⟨_, h⟩ | ⟨_, h⟩ <;> cases h
    · rename_i hzero
      have hlt : divCeil (mmap.bytes.length - rest.length) header.alignment * header.alignment < 2 ^ 64 := by
        have hfits := mmap.fits
        exact divCeil_mul_lt (by omega) header.alignment_lt (Nat.pos_of_ne_zero hzero)
      rw [if_neg (Nat.not_le.mpr hlt)]
      refine ⟨fun _ => ⟨hnot, ?_⟩, fun _ => .inl ⟨_, rfl⟩⟩
      rintro ⟨header', front', rest', hlayout', hbytes', hzero'⟩
      have hok := (hreads.ok mmap.bytes header' rest').mpr ⟨front', hlayout', hbytes'⟩
      rw [hread] at hok
      cases hok
      exact hzero hzero'

/-- A machine whose memory is only bounded by the address space. -/
def hosted (stack : Nat) : Machine where
  grants _ n := decide (n < 2 ^ 63)
  bounded _ _ h := decide_eq_false (Nat.not_lt.mpr h)
  stack := stack

/-- Twenty-four bytes that announce 2^64 - 1 metadata pairs. -/
def manyPairs : Mmap where
  bytes := [0x47, 0x47, 0x55, 0x46, 3, 0, 0, 0, 0, 0, 0, 0, 0, 0, 0, 0, 255, 255, 255, 255, 255, 255, 255, 255]
  fits := by decide

/-- The count is taken for a capacity before a pair is read. -/
theorem count_preallocated :
    parseGgufHeader (hosted 100000) manyPairs = .fault (.allocation .metadata (2 ^ 64 - 1)) := rfl

end Flambeau.Quant
