namespace Flambeau.Systems

/-- A system that takes one action at a time; `none` where the action is not
enabled. -/
structure System (S A : Type) where
  init : S → Prop
  step : S → A → Option S

namespace System

variable (M : System S A)

/-- The states of the runs whose every step meets the guard in the state before
it. -/
inductive Run (P : S → A → Prop) : S → Prop where
  | init : M.init s → Run P s
  | step : Run P s → P s a → M.step s a = some s' → Run P s'

def Reachable (s : S) : Prop := M.Run (fun _ _ => True) s

/-- The state after a list of actions. -/
def runFrom (s : S) : List A → Option S
  | [] => some s
  | a :: as => (M.step s a).bind fun s' => runFrom s' as

theorem runFrom_append (s : S) (as bs : List A) :
    M.runFrom s (as ++ bs) = (M.runFrom s as).bind fun s' => M.runFrom s' bs := by
  induction as generalizing s with
  | nil => rfl
  | cons a as ih =>
    simp only [List.cons_append, runFrom, Option.bind_assoc, ih]

variable {M}

/-- What holds at first and is kept by every guarded step holds all along. -/
theorem Run.invariant {I : S → Prop} (hinit : ∀ s, M.init s → I s)
    (hstep : ∀ s a s', I s → P s a → M.step s a = some s' → I s') (h : M.Run P s) : I s := by
  induction h with
  | init hs => exact hinit _ hs
  | step _ hp hs ih => exact hstep _ _ _ ih hp hs

theorem Run.mono {Q : S → A → Prop} (hpq : ∀ s a, P s a → Q s a) (h : M.Run P s) : M.Run Q s := by
  induction h with
  | init hs => exact .init hs
  | step _ hp hs ih => exact .step ih (hpq _ _ hp) hs

/-- The guard is met all along a list of actions. -/
def Meets (M : System S A) (P : S → A → Prop) (s : S) : List A → Prop
  | [] => True
  | a :: as => P s a ∧ ∀ s', M.step s a = some s' → Meets M P s' as

theorem Run.runFrom (h : M.Run P s) (hp : Meets M P s as) (hr : M.runFrom s as = some s') :
    M.Run P s' := by
  induction as generalizing s with
  | nil =>
    cases hr
    exact h
  | cons a as ih =>
    obtain ⟨s₁, hs, hr⟩ := Option.bind_eq_some_iff.mp hr
    exact ih (.step h hp.1 hs) (hp.2 s₁ hs) hr

/-- What every guarded step keeps, a list of them keeps. -/
theorem runFrom_keeps {I : S → Prop} (hstep : ∀ s a s', I s → P s a → M.step s a = some s' → I s')
    (h : I s) (hp : Meets M P s as) (hr : M.runFrom s as = some s') : I s' := by
  induction as generalizing s with
  | nil =>
    cases hr
    exact h
  | cons a as ih =>
    obtain ⟨s₁, hs, hr⟩ := Option.bind_eq_some_iff.mp hr
    exact ih (hstep _ _ _ h hp.1 hs) (hp.2 s₁ hs) hr

theorem meets_true (s : S) (as : List A) : Meets M (fun _ _ => True) s as := by
  induction as generalizing s with
  | nil => trivial
  | cons a as ih => exact ⟨trivial, fun s' _ => ih s'⟩

end System
end Flambeau.Systems
