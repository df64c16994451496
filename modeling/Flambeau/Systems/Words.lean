import Mathlib
import Flambeau.Systems.Layouts

namespace Flambeau.Systems

/-- What a build makes of a word that overflows. -/
inductive Overflow where
  | panics
  | wraps
deriving DecidableEq

namespace Overflow

variable {ε φ α : Type}

/-- An exact result as a word of 64 bits. -/
def word (o : Overflow) (fault : φ) (n : Nat) : Outcome ε φ Nat :=
  if n < 2 ^ 64 then .ok n
  else
    match o with
    | panics => .fault fault
    | wraps => .ok (n % 2 ^ 64)

/-- A product of words, one factor after the other. -/
def product (o : Overflow) (fault : φ) (acc : Nat) : List Nat → Outcome ε φ Nat
  | [] => .ok acc
  | d :: ds => o.word fault (acc * d) >>= fun n => o.product fault n ds

theorem word_fits (o : Overflow) (fault : φ) (h : n < 2 ^ 64) : (o.word fault n : Outcome ε φ Nat) = .ok n := by
  unfold word
  exact if_pos h

theorem word_panics (fault : φ) (h : ¬ n < 2 ^ 64) :
    (panics.word fault n : Outcome ε φ Nat) = .fault fault := by
  unfold word
  exact if_neg h

theorem word_wraps (fault : φ) (n : Nat) : (wraps.word fault n : Outcome ε φ Nat) = .ok (n % 2 ^ 64) := by
  unfold word
  split
  · rename_i h
    rw [Nat.mod_eq_of_lt h]
  · rfl

theorem product_wraps (fault : φ) (acc : Nat) (ds : List Nat) :
    (wraps.product fault acc ds : Outcome ε φ Nat) =
      .ok (ds.foldl (fun n d => n * d % 2 ^ 64) acc) := by
  induction ds generalizing acc with
  | nil => rfl
  | cons d ds ih =>
    rw [product, word_wraps, List.foldl_cons, ← ih]
    rfl

/-- Every partial product is a word. -/
def ProductFits : Nat → List Nat → Prop
  | _, [] => True
  | acc, d :: ds => acc * d < 2 ^ 64 ∧ ProductFits (acc * d) ds

/-- In every build an error, or a result that meets `Q`: no fault. -/
def Safe (x : Overflow → Outcome ε φ α) (Q : α → Prop) : Prop :=
  ∀ o, (∃ e, x o = .err e) ∨ ∃ a, x o = .ok a ∧ Q a

variable {Q : α → Prop} {fault : φ}

theorem safe_ok {a : α} : Safe (fun _ => (.ok a : Outcome ε φ α)) Q ↔ Q a := by
  constructor
  · intro h
    rcases h panics with ⟨e, he⟩ | ⟨b, hb, hq⟩
    · cases he
    · cases hb
      exact hq
  · exact fun hq _ => .inr ⟨a, rfl, hq⟩

theorem safe_err {e : ε} : Safe (fun _ => (.err e : Outcome ε φ α)) Q :=
  fun _ => .inl ⟨e, rfl⟩

theorem not_safe_fault {x : Overflow → Outcome ε φ α} (h : x panics = .fault fault) : ¬ Safe x Q := by
  intro hs
  rcases hs panics with ⟨e, he⟩ | ⟨b, hb, -⟩
  · rw [h] at he
    cases he
  · rw [h] at hb
    cases hb

/-- A word has to fit, and what comes next gets the exact value. -/
theorem safe_word {k : Overflow → Nat → Outcome ε φ α} :
    Safe (fun o => o.word fault n >>= k o) Q ↔ n < 2 ^ 64 ∧ Safe (fun o => k o n) Q := by
  by_cases h : n < 2 ^ 64
  · simp only [word_fits _ _ h, h, true_and]
    rfl
  · constructor
    · intro hs
      refine absurd hs (@not_safe_fault _ _ _ _ fault _ ?_)
      rw [word_panics fault h]
      rfl
    · exact fun hs => absurd hs.1 h

theorem safe_product {k : Overflow → Nat → Outcome ε φ α} (acc : Nat) (ds : List Nat) :
    Safe (fun o => o.product fault acc ds >>= k o) Q ↔
      ProductFits acc ds ∧ Safe (fun o => k o (acc * ds.prod)) Q := by
  induction ds generalizing acc with
  | nil =>
    simp only [product, ProductFits, true_and, List.prod_nil, Nat.mul_one]
    rfl
  | cons d ds ih =>
    have hassoc : ∀ o : Overflow, (o.product fault acc (d :: ds) >>= k o : Outcome ε φ α) =
        o.word fault (acc * d) >>= fun n => o.product fault n ds >>= k o := by
      intro o
      rw [product]
      cases (o.word fault (acc * d) : Outcome ε φ Nat) <;> rfl
    simp only [hassoc]
    rw [safe_word, ih, ProductFits, and_assoc, List.prod_cons, Nat.mul_assoc]

theorem safe_ite {c : Prop} [Decidable c] {x y : Overflow → Outcome ε φ α} :
    Safe (fun o => if c then x o else y o) Q ↔ (c → Safe x Q) ∧ (¬c → Safe y Q) := by
  by_cases h : c
  · simp [h]
  · simp [h]

end Overflow
end Flambeau.Systems
