import Mathlib.Algebra.BigOperators.Group.Finset.Basic
import Mathlib.Algebra.Order.BigOperators.Group.Finset

namespace Flambeau.Systems

variable {K : Type} {w w' : K → Nat} {n m v : Nat} {j k : K}

/-- `n` is the sum of the weights, finitely many of which are not zero. -/
def Total (w : K → Nat) (n : Nat) : Prop :=
  ∃ S : Finset K, (∀ k, k ∉ S → w k = 0) ∧ ∑ k ∈ S, w k = n

/-- The weights but for one. -/
def without [DecidableEq K] (w : K → Nat) (k : K) : K → Nat := fun j => if j = k then 0 else w j

namespace Total

theorem zero : Total (fun _ : K => 0) 0 := ⟨∅, fun _ _ => rfl, rfl⟩

variable [DecidableEq K]

theorem unique (hn : Total w n) (hm : Total w m) : n = m := by
  obtain ⟨S, hS, rfl⟩ := hn
  obtain ⟨S', hS', rfl⟩ := hm
  have hleft : ∑ k ∈ S, w k = ∑ k ∈ S ∪ S', w k :=
    Finset.sum_subset Finset.subset_union_left fun k _ hk => hS k hk
  have hright : ∑ k ∈ S', w k = ∑ k ∈ S ∪ S', w k :=
    Finset.sum_subset Finset.subset_union_right fun k _ hk => hS' k hk
  rw [hleft, hright]

theorem without_other (h : j ≠ k) : without w k j = w j := if_neg h

theorem without_self : without w k k = 0 := if_pos rfl

/-- A weight and the sum of the others. -/
theorem split (h : Total w n) (k : K) : ∃ r, n = w k + r ∧ Total (without w k) r := by
  obtain ⟨S, hS, rfl⟩ := h
  have hrest : ∑ j ∈ S.erase k, w j = ∑ j ∈ S.erase k, without w k j :=
    Finset.sum_congr rfl fun j hj => (without_other (Finset.ne_of_mem_erase hj)).symm
  refine ⟨∑ j ∈ S.erase k, w j, ?_, S.erase k, fun j hj => ?_, hrest.symm⟩
  · by_cases hk : k ∈ S
    · exact (Finset.add_sum_erase S w hk).symm
    · rw [hS k hk, Finset.erase_eq_of_notMem hk, Nat.zero_add]
  · by_cases hjk : j = k
    · rw [hjk, without_self]
    · rw [without_other hjk]
      exact hS j fun hjS => hj (Finset.mem_erase.mpr ⟨hjk, hjS⟩)

theorem join (h : Total (without w k) m) : Total w (w k + m) := by
  obtain ⟨S, hS, hsum⟩ := h
  refine ⟨insert k (S.erase k), fun j hj => ?_, ?_⟩
  · rw [Finset.mem_insert, not_or] at hj
    have hjS : j ∉ S := fun hjS => hj.2 (Finset.mem_erase.mpr ⟨hj.1, hjS⟩)
    rw [← hS j hjS, without_other hj.1]
  · have hsame : ∑ j ∈ S.erase k, w j = m := by
      rw [← hsum, ← Finset.sum_erase S without_self]
      exact Finset.sum_congr rfl fun j hj => (without_other (Finset.ne_of_mem_erase hj)).symm
    rw [Finset.sum_insert (Finset.notMem_erase k S), hsame]

/-- One weight changes. -/
theorem set (h : Total w n) (hsame : ∀ j, j ≠ k → w' j = w j) : Total w' (n - w k + w' k) := by
  obtain ⟨r, hr, hrest⟩ := h.split k
  have hfun : without w k = without w' k := by
    funext j
    by_cases hj : j = k
    · rw [hj, without_self, without_self]
    · rw [without_other hj, without_other hj, hsame j hj]
  rw [hfun] at hrest
  have hn : n - w k + w' k = w' k + r := by omega
  rw [hn]
  exact hrest.join

theorem le (h : Total w n) (k : K) : w k ≤ n := by
  obtain ⟨r, hr, -⟩ := h.split k
  omega

theorem add_le (h : Total w n) (hne : j ≠ k) : w j + w k ≤ n := by
  obtain ⟨r, hr, hrest⟩ := h.split k
  have hj := hrest.le j
  rw [without_other hne] at hj
  omega

/-- All weight in one place. -/
theorem only (h : Total w n) (hrest : ∀ j, j ≠ k → w j = 0) : n = w k := by
  obtain ⟨r, hr, htotal⟩ := h.split k
  have hzero : without w k = fun _ => 0 := by
    funext j
    by_cases hj : j = k
    · rw [hj, without_self]
    · rw [without_other hj, hrest j hj]
  rw [hzero] at htotal
  rw [hr, htotal.unique zero, Nat.add_zero]

end Total
end Flambeau.Systems
