namespace Flambeau.Systems

variable {T : Type}

/-- A lock is held by exactly the thread whose program counter says so. -/
def Guards (holds : β → Bool) (lock : Option T) (pc : T → β) : Prop :=
  ∀ u, holds (pc u) = true ↔ lock = some u

variable {holds : β → Bool} {lock : Option T} {pc : T → β}

theorem Guards.holder (h : Guards holds lock pc) (ht : holds (pc t) = true) : lock = some t :=
  (h t).mp ht

/-- Two threads cannot both hold the lock. -/
theorem Guards.unique (h : Guards holds lock pc) (ht : holds (pc t) = true)
    (hu : holds (pc u) = true) : u = t := by
  have h₁ := h.holder ht
  have h₂ := h.holder hu
  rw [h₁] at h₂
  cases h₂
  rfl

section

variable [DecidableEq T]

/-- The threads' map with `x` for thread `t`. -/
def set (f : T → β) (t : T) (x : β) : T → β := fun u => if u = t then x else f u

@[simp] theorem set_self (f : T → β) (t : T) (x : β) : set f t x t = x := by simp [set]

theorem set_ne (f : T → β) (x : β) (h : u ≠ t) : set f t x u = f u := by simp [set, h]

/-- What holds of every thread after one of them has moved. -/
theorem set_cases {P : T → β → Prop} {f : T → β} (ht : P t x) (hrest : ∀ u, u ≠ t → P u (f u)) :
    ∀ u, P u (set f t x u) := by
  intro u
  by_cases hu : u = t
  · subst hu
    rw [set_self]
    exact ht
  · rw [set_ne _ _ hu]
    exact hrest u hu

theorem Guards.keep (h : Guards holds lock pc) (hx : holds x = holds (pc t)) :
    Guards holds lock (set pc t x) := by
  intro u
  by_cases hu : u = t
  · subst hu
    rw [set_self, hx]
    exact h u
  · rw [set_ne _ _ hu]
    exact h u

theorem Guards.take (h : Guards holds none pc) (hx : holds x = true) :
    Guards holds (some t) (set pc t x) := by
  intro u
  by_cases hu : u = t
  · subst hu
    simp [hx]
  · rw [set_ne _ _ hu]
    constructor
    · intro hh
      have hnone := (h u).mp hh
      cases hnone
    · intro he
      cases he
      exact absurd rfl hu

theorem Guards.drop (h : Guards holds lock pc) (ht : holds (pc t) = true) (hx : holds x = false) :
    Guards holds none (set pc t x) := by
  have hlock := h.holder ht
  intro u
  by_cases hu : u = t
  · subst hu
    simp [hx]
  · rw [set_ne _ _ hu]
    constructor
    · intro hh
      have hheld := (h u).mp hh
      rw [hlock] at hheld
      cases hheld
      exact absurd rfl hu
    · intro he
      cases he

end

end Flambeau.Systems
