namespace Flambeau.Systems

/-- An action that may fail; a failure keeps the state that it leaves. -/
def Fallible (σ α : Type) : Type := σ → Option α × σ

namespace Fallible

variable {σ α β : Type}

instance : Monad (Fallible σ) where
  pure a s := (some a, s)
  bind m f s := match m s with
    | (some a, s') => f a s'
    | (none, s') => (none, s')

/-- A step that cannot fail. -/
def always (f : σ → α × σ) : Fallible σ α := fun s => (some (f s).1, (f s).2)

/-- A step that fails in the states that `p` picks. -/
def guarded (p : σ → Bool) (tick : σ → σ) (f : σ → σ) : Fallible σ Unit :=
  fun s => if p s then (none, tick s) else (some (), f (tick s))

/-- The action, except where `done`. -/
def skipWhen (done : Bool) (m : Fallible σ Unit) : Fallible σ Unit := if done then pure () else m

def branch (p : σ → Bool) (yes no : Fallible σ α) : Fallible σ α :=
  fun s => if p s then yes s else no s

/-- Where the action succeeds, `Q` holds of its result and state, else `E` of its state. -/
def Ends (m : Fallible σ α) (Q : α → σ → Prop) (E : σ → Prop) (s : σ) : Prop :=
  match m s with
  | (some a, s') => Q a s'
  | (none, s') => E s'

variable {m : Fallible σ α} {Q Q' : α → σ → Prop} {E E' : σ → Prop} {s : σ}

theorem ends_pure (a : α) : Ends (pure a : Fallible σ α) Q E s ↔ Q a s := Iff.rfl

theorem ends_bind (m : Fallible σ α) (f : α → Fallible σ β) {Q : β → σ → Prop} :
    Ends (m >>= f) Q E s ↔ Ends m (fun a s' => Ends (f a) Q E s') E s := by
  unfold Ends
  change (match (match m s with
    | (some a, s') => f a s'
    | (none, s') => (none, s')) with
    | (some a, s') => Q a s'
    | (none, s') => E s') ↔ _
  cases h : m s with
  | mk a s' => cases a <;> rfl

theorem ends_always (f : σ → α × σ) : Ends (always f) Q E s ↔ Q (f s).1 (f s).2 := Iff.rfl

theorem ends_guarded (p : σ → Bool) (tick f : σ → σ) {Q : Unit → σ → Prop} :
    Ends (guarded p tick f) Q E s ↔
      (p s = true → E (tick s)) ∧ (p s = false → Q () (f (tick s))) := by
  unfold Ends guarded
  cases p s <;> simp

theorem ends_skipWhen (done : Bool) (m : Fallible σ Unit) {Q : Unit → σ → Prop} :
    Ends (skipWhen done m) Q E s ↔ (done = true → Q () s) ∧ (done = false → Ends m Q E s) := by
  unfold skipWhen
  cases done <;> simp [ends_pure]

theorem ends_branch (p : σ → Bool) (yes no : Fallible σ α) :
    Ends (branch p yes no) Q E s ↔
      (p s = true → Ends yes Q E s) ∧ (p s = false → Ends no Q E s) := by
  unfold Ends branch
  cases p s <;> simp

theorem Ends.mono (h : Ends m Q E s) (hQ : ∀ a s', Q a s' → Q' a s') (hE : ∀ s', E s' → E' s') :
    Ends m Q' E' s := by
  unfold Ends at h ⊢
  cases hm : m s with
  | mk a s' =>
    rw [hm] at h
    cases a with
    | none => exact hE s' h
    | some a => exact hQ a s' h

theorem Ends.and (h : Ends m Q E s) (h' : Ends m Q' E' s) :
    Ends m (fun a s' => Q a s' ∧ Q' a s') (fun s' => E s' ∧ E' s') s := by
  unfold Ends at h h' ⊢
  cases hm : m s with
  | mk a s' =>
    rw [hm] at h h'
    cases a <;> exact ⟨h, h'⟩

/-- An action ends in some way. -/
theorem not_ends_false : ¬ Ends m (fun _ _ => False) (fun _ => False) s := by
  unfold Ends
  cases m s with
  | mk a s' => cases a <;> exact id

end Fallible
end Flambeau.Systems
