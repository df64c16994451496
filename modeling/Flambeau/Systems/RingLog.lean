import Flambeau.Systems.Spans

namespace Flambeau.Systems

/-- A log kept in a ring of cells: each of its last `depth` entries is in the cell
of its index modulo `depth`. -/
def RingHolds (depth : Nat) (cell : Nat → α) (log : List α) : Prop :=
  ∀ t entry, log[t]? = some entry → log.length ≤ t + depth → cell (t % depth) = entry

theorem ringHolds_nil (depth : Nat) (cell : Nat → α) : RingHolds depth cell [] :=
  nofun

/-- Two indices less than `depth` apart have cells of their own. -/
theorem ring_cells_apart {s t depth : Nat} (hlt : s < t) (hnear : t < s + depth) :
    s % depth ≠ t % depth := by
  intro heq
  have hdvd : depth ∣ t - s := Nat.dvd_of_mod_eq_zero (Nat.sub_mod_eq_zero_of_mod_eq heq.symm)
  have hle := Nat.le_of_dvd (Nat.sub_pos_of_lt hlt) hdvd
  omega

/-- Appending overwrites only the entry that leaves the last `depth`. -/
theorem RingHolds.push (h : RingHolds depth cell log)
    (hnew : cell' (log.length % depth) = entry)
    (hkeep : ∀ i, i < depth → i ≠ log.length % depth → cell' i = cell i) :
    RingHolds depth cell' (log ++ [entry]) := by
  intro t old hold hlive
  rw [List.length_append, List.length_singleton] at hlive
  by_cases hlast : t < log.length
  · rw [List.getElem?_append_left hlast] at hold
    have hdepth : 0 < depth := by omega
    rw [hkeep (t % depth) (Nat.mod_lt _ hdepth) (ring_cells_apart hlast (by omega))]
    exact h t old hold (by omega)
  · have ht : t = log.length := by
      obtain ⟨hlen, -⟩ := List.getElem?_eq_some_iff.mp hold
      rw [List.length_append, List.length_singleton] at hlen
      omega
    subst ht
    rw [List.getElem?_append_right (Nat.le_refl _), Nat.sub_self] at hold
    cases hold
    exact hnew

theorem RingHolds.congr (h : RingHolds depth cell log) (hdepth : 0 < depth)
    (hkeep : ∀ i, i < depth → cell' i = cell i) : RingHolds depth cell' log := by
  intro t entry hold hlive
  rw [hkeep _ (Nat.mod_lt _ hdepth)]
  exact h t entry hold hlive

end Flambeau.Systems
