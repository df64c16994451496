import Mathlib.Data.Fintype.Card
import Flambeau.Systems.Locks

namespace Flambeau.Systems

/-- A barrier that is used again and again: the threads that wait in this generation. -/
structure Barrier where
  count : Nat
  generation : Nat

namespace Barrier

/-- A thread of `n` arrives: the last one opens the next generation, the others wait for it. -/
def arrive (n : Nat) (b : Barrier) : Barrier × Option Nat :=
  if b.count + 1 < n then (⟨b.count + 1, b.generation⟩, some b.generation)
  else (⟨0, b.generation + 1⟩, none)

variable {T : Type} [Fintype T]

/-- The barrier counts the threads that wait in its generation. A thread may still have to leave the
one before. -/
structure Counts (b : Barrier) (waiting : T → Option Nat) : Prop where
  count : b.count = (Finset.univ.filter fun t => waiting t = some b.generation).card
  room : b.count < Fintype.card T
  near : ∀ t g, waiting t = some g → g = b.generation ∨ g + 1 = b.generation

variable {b : Barrier} {waiting waiting' : T → Option Nat} {t : T}

theorem counts_start [Nonempty T] : Counts ⟨0, 0⟩ fun _ : T => none where
  count := by simp
  room := Fintype.card_pos
  near := nofun

namespace Counts

/-- A thread that neither waits nor has to be let go. -/
theorem pass (h : b.Counts waiting) (hnow : waiting t ≠ some b.generation) (hthen : waiting' t = none)
    (hrest : ∀ u, u ≠ t → waiting' u = waiting u) : b.Counts waiting' := by
  have hsame : ∀ u, waiting' u = some b.generation ↔ waiting u = some b.generation := by
    intro u
    by_cases hu : u = t
    · subst hu
      exact iff_of_false (by rw [hthen]; nofun) hnow
    · rw [hrest u hu]
  refine ⟨?_, h.room, ?_⟩
  · rw [h.count]
    congr 1
    apply Finset.filter_congr
    intro u _
    exact (hsame u).symm
  · intro u g hg
    by_cases hu : u = t
    · rw [hu, hthen] at hg
      cases hg
    · exact h.near u g (hrest u hu ▸ hg)

/-- Not all the others are there yet. -/
theorem wait (h : b.Counts waiting) (hlt : b.count + 1 < Fintype.card T) (hnow : waiting t = none)
    (hthen : waiting' t = some b.generation) (hrest : ∀ u, u ≠ t → waiting' u = waiting u) :
    Counts ⟨b.count + 1, b.generation⟩ waiting' := by
  classical
  have hinsert : (Finset.univ.filter fun u => waiting' u = some b.generation) =
      insert t (Finset.univ.filter fun u => waiting u = some b.generation) := by
    ext u
    by_cases hu : u = t
    · subst hu
      simp [hthen]
    · simp [hu, hrest u hu]
  refine ⟨?_, hlt, ?_⟩
  · dsimp only
    rw [hinsert, Finset.card_insert_of_notMem (by simp [hnow]), h.count]
  · intro u g hg
    by_cases hu : u = t
    · rw [hu, hthen] at hg
      cases hg
      exact .inl rfl
    · exact h.near u g (hrest u hu ▸ hg)

/-- The last thread finds all the others waiting. -/
theorem others (h : b.Counts waiting) (hle : ¬ b.count + 1 < Fintype.card T) (hnow : waiting t = none) :
    ∀ u, u ≠ t → waiting u = some b.generation := by
  classical
  intro u hu
  apply Decidable.byContradiction
  intro hnot
  have hsub : (Finset.univ.filter fun v => waiting v = some b.generation) ⊆ Finset.univ \ {t, u} := by
    intro v hv
    have hv := (Finset.mem_filter.mp hv).2
    rw [Finset.mem_sdiff, Finset.mem_insert, Finset.mem_singleton]
    refine ⟨Finset.mem_univ v, ?_⟩
    rintro (rfl | rfl)
    · rw [hnow] at hv
      cases hv
    · exact hnot hv
  have hcard := Finset.card_le_card hsub
  rw [← h.count, Finset.card_sdiff_of_subset (Finset.subset_univ _), Finset.card_univ,
    Finset.card_pair (Ne.symm hu)] at hcard
  have hroom : 2 ≤ Fintype.card T := by
    have hpair := Finset.card_le_univ ({t, u} : Finset T)
    rwa [Finset.card_pair (Ne.symm hu)] at hpair
  omega

theorem open_ (h : b.Counts waiting) (hle : ¬ b.count + 1 < Fintype.card T) (hnow : waiting t = none)
    (hthen : waiting' t = none) (hrest : ∀ u, u ≠ t → waiting' u = waiting u) :
    Counts ⟨0, b.generation + 1⟩ waiting' := by
  have hothers := h.others hle hnow
  have hno : ∀ u, waiting' u ≠ some (b.generation + 1) := by
    intro u hg
    by_cases hu : u = t
    · rw [hu, hthen] at hg
      cases hg
    · rw [hrest u hu, hothers u hu, Option.some.injEq] at hg
      omega
  refine ⟨?_, Fintype.card_pos_iff.mpr ⟨t⟩, ?_⟩
  · symm
    rw [Finset.card_eq_zero, Finset.filter_eq_empty_iff]
    exact fun u _ => hno u
  · intro u g hg
    by_cases hu : u = t
    · rw [hu, hthen] at hg
      cases hg
    · rw [hrest u hu, hothers u hu] at hg
      cases hg
      exact .inr rfl

/-- Not every thread waits in this generation. -/
theorem runs (h : b.Counts waiting) : ∃ t, waiting t ≠ some b.generation := by
  apply Decidable.byContradiction
  intro hall
  have hwait : ∀ t, waiting t = some b.generation := by
    intro t
    apply Decidable.byContradiction
    intro hne
    exact hall ⟨t, hne⟩
  have hroom := h.room
  rw [h.count, Finset.filter_true_of_mem fun t _ => hwait t, Finset.card_univ] at hroom
  omega

end Counts
end Barrier
end Flambeau.Systems
