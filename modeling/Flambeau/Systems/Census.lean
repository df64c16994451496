import Mathlib.Data.List.Nodup
import Flambeau.Systems.Locks

namespace Flambeau.Systems

variable {T : Type} {p : β → Bool} {pc : T → β} {n m : Nat} {t : T} {x : β}

/-- Exactly `n` threads have a program counter that meets `p`. -/
def Census (p : β → Bool) (pc : T → β) (n : Nat) : Prop :=
  ∃ l : List T, l.Nodup ∧ (∀ t, t ∈ l ↔ p (pc t) = true) ∧ l.length = n

namespace Census

theorem zero (h : ∀ t, p (pc t) = false) : Census p pc 0 := by
  refine ⟨[], List.nodup_nil, ?_, rfl⟩
  intro t
  simp [h t]

theorem unique (h : Census p pc n) (h' : Census p pc m) : n = m := by
  obtain ⟨l, hl, hmem, rfl⟩ := h
  obtain ⟨l', hl', hmem', rfl⟩ := h'
  have hperm : l.Perm l' := by
    rw [List.perm_ext_iff_of_nodup hl hl']
    intro t
    rw [hmem, hmem']
  exact hperm.length_eq

variable [DecidableEq T]

theorem keep (h : Census p pc n) (hx : p x = p (pc t)) : Census p (set pc t x) n := by
  obtain ⟨l, hl, hmem, rfl⟩ := h
  refine ⟨l, hl, ?_, rfl⟩
  intro u
  by_cases hu : u = t
  · subst hu
    rw [set_self, hx]
    exact hmem u
  · rw [set_ne _ _ hu]
    exact hmem u

theorem enter (h : Census p pc n) (ht : p (pc t) = false) (hx : p x = true) :
    Census p (set pc t x) (n + 1) := by
  obtain ⟨l, hl, hmem, rfl⟩ := h
  have hnew : t ∉ l := by
    intro hin
    rw [hmem, ht] at hin
    cases hin
  refine ⟨t :: l, List.nodup_cons.mpr ⟨hnew, hl⟩, ?_, rfl⟩
  intro u
  by_cases hu : u = t
  · subst hu
    simp [hx]
  · rw [set_ne _ _ hu, ← hmem u]
    simp [hu]

theorem leave (h : Census p pc n) (ht : p (pc t) = true) (hx : p x = false) :
    ∃ k, n = k + 1 ∧ Census p (set pc t x) k := by
  obtain ⟨l, hl, hmem, rfl⟩ := h
  have hin : t ∈ l := (hmem t).mpr ht
  have hlen := List.length_erase_of_mem hin
  have hpos := List.length_pos_of_mem hin
  refine ⟨(l.erase t).length, by omega, l.erase t, hl.erase t, ?_, rfl⟩
  intro u
  rw [hl.mem_erase_iff]
  by_cases hu : u = t
  · subst hu
    simp [hx]
  · rw [set_ne _ _ hu, ← hmem u]
    simp [hu]

end Census

section Custody

variable {key : α → κ} {carries : β → List α} {pool pool' : List α}

/-- Something lies in the pool or a thread carries it. -/
def Held (carries : β → List α) (pool : List α) (pc : T → β) (a : α) : Prop :=
  a ∈ pool ∨ ∃ t, a ∈ carries (pc t)

/-- No key is in two places: the pool, and what each thread carries. -/
structure Custody (key : α → κ) (carries : β → List α) (pool : List α) (pc : T → β) : Prop where
  nodup : ∀ t, ((pool ++ carries (pc t)).map key).Nodup
  apart : ∀ t u, t ≠ u → ∀ a ∈ carries (pc t), ∀ b ∈ carries (pc u), key a ≠ key b

namespace Custody

theorem pool_apart (h : Custody key carries pool pc) {a b : α} (ha : a ∈ pool) (hb : b ∈ carries (pc t)) :
    key a ≠ key b := by
  have hnodup := h.nodup t
  rw [List.map_append] at hnodup
  exact List.disjoint_iff_ne.mp (List.disjoint_of_nodup_append hnodup) _ (List.mem_map_of_mem ha) _
    (List.mem_map_of_mem hb)

variable [DecidableEq T]

/-- A thread that gives and takes between its hands and the pool. -/
theorem move (h : Custody key carries pool pc)
    (hsub : (pool' ++ carries x).Subperm (pool ++ carries (pc t))) :
    Custody key carries pool' (set pc t x) := by
  have hown : ((pool' ++ carries x).map key).Nodup := by
    obtain ⟨l, hperm, hl⟩ := hsub
    exact (hperm.map key).nodup_iff.mp ((h.nodup t).sublist (hl.map key))
  have hothers : ∀ u, u ≠ t → ∀ a ∈ pool' ++ carries x, ∀ b ∈ carries (pc u), key a ≠ key b := by
    intro u hu a ha b hb
    obtain ⟨l, hperm, hl⟩ := hsub
    rcases List.mem_append.mp (hl.subset (hperm.mem_iff.mpr ha)) with ha | ha
    · exact h.pool_apart ha hb
    · exact h.apart t u (Ne.symm hu) a ha b hb
  refine ⟨?_, ?_⟩
  · intro u
    by_cases hu : u = t
    · subst hu
      rw [set_self]
      exact hown
    · rw [set_ne _ _ hu, List.map_append]
      rw [List.map_append] at hown
      have hu' := h.nodup u
      rw [List.map_append] at hu'
      refine List.Nodup.append hown.of_append_left hu'.of_append_right ?_
      rw [List.disjoint_iff_ne]
      intro i hi j hj
      obtain ⟨a, ha, rfl⟩ := List.mem_map.mp hi
      obtain ⟨b, hb, rfl⟩ := List.mem_map.mp hj
      exact hothers u hu a (List.mem_append_left _ ha) b hb
  · intro u v huv a ha b hb
    by_cases hu : u = t
    · subst hu
      rw [set_self] at ha
      rw [set_ne _ _ (Ne.symm huv)] at hb
      exact hothers v (Ne.symm huv) a (List.mem_append_right _ ha) b hb
    · rw [set_ne _ _ hu] at ha
      by_cases hv : v = t
      · subst hv
        rw [set_self] at hb
        exact (hothers u hu b (List.mem_append_right _ hb) a ha).symm
      · rw [set_ne _ _ hv] at hb
        exact h.apart u v huv a ha b hb

/-- A thread with empty hands takes up something new. -/
theorem enter (h : Custody key carries pool pc) {a : α} (hx : carries x = [a])
    (hnew : ∀ b, Held carries pool pc b → key b ≠ key a) : Custody key carries pool (set pc t x) := by
  refine ⟨?_, ?_⟩
  · intro u
    by_cases hu : u = t
    · subst hu
      have hpool := h.nodup u
      rw [List.map_append] at hpool
      rw [set_self, hx, List.map_append]
      refine List.Nodup.append hpool.of_append_left (List.nodup_singleton _) ?_
      rw [List.disjoint_iff_ne]
      intro i hi j hj
      obtain ⟨b, hb, rfl⟩ := List.mem_map.mp hi
      cases List.mem_singleton.mp hj
      exact hnew b (.inl hb)
    · rw [set_ne _ _ hu]
      exact h.nodup u
  · intro u v huv b hb c hc
    by_cases hu : u = t
    · subst hu
      rw [set_self, hx] at hb
      cases List.mem_singleton.mp hb
      rw [set_ne _ _ (Ne.symm huv)] at hc
      exact (hnew c (.inr ⟨v, hc⟩)).symm
    · rw [set_ne _ _ hu] at hb
      by_cases hv : v = t
      · subst hv
        rw [set_self, hx] at hc
        cases List.mem_singleton.mp hc
        exact hnew b (.inr ⟨u, hb⟩)
      · rw [set_ne _ _ hv] at hc
        exact h.apart u v huv b hb c hc

/-- What a thread lets go of is nowhere any more. -/
theorem gone (h : Custody key carries pool pc) {a : α} (ht : carries (pc t) = a :: carries x) :
    ∀ b, Held carries pool (set pc t x) b → key b ≠ key a := by
  have ha : a ∈ carries (pc t) := by
    rw [ht]
    exact List.mem_cons_self
  intro b hb
  rcases hb with hb | ⟨u, hb⟩
  · exact h.pool_apart hb ha
  · by_cases hu : u = t
    · subst hu
      rw [set_self] at hb
      have hnodup := h.nodup u
      rw [List.map_append, ht, List.map_cons] at hnodup
      intro heq
      exact (List.nodup_cons.mp hnodup.of_append_right).1 (heq ▸ List.mem_map_of_mem hb)
    · rw [set_ne _ _ hu] at hb
      exact h.apart u t hu b hb a ha

end Custody

theorem Held.of_set [DecidableEq T] {a : α} (h : Held carries pool' (set pc t x) a)
    (hsub : ∀ b, b ∈ pool' ++ carries x → b ∈ pool ++ carries (pc t)) : Held carries pool pc a := by
  have hback : ∀ b, b ∈ pool ++ carries (pc t) → Held carries pool pc b := fun b hb =>
    (List.mem_append.mp hb).imp id fun hb => ⟨t, hb⟩
  rcases h with h | ⟨u, h⟩
  · exact hback a (hsub a (List.mem_append_left _ h))
  · by_cases hu : u = t
    · subst hu
      rw [set_self] at h
      exact hback a (hsub a (List.mem_append_right _ h))
    · rw [set_ne _ _ hu] at h
      exact .inr ⟨u, h⟩

end Custody
end Flambeau.Systems
