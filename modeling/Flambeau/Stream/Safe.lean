import Flambeau.Stream.Judgement

namespace Flambeau.Stream.Machine

/-- Every state in which a stream takes a step satisfies `G`, which may depend on whether the input
has ended. -/
def Safely (m : Machine α E P) (G : Bool → P → Prop) (p : P) : List (List α) → Prop
  | [] => ∀ r, Draining m true p r → G true r
  | c :: cs =>
    (c ≠ [] → ∀ r, Draining m false (m.feed p c) r → G false r) ∧
      ∀ es q, m.push p c = some (es, q) → Safely m G q cs

variable {m : Machine α E P} {G : Bool → P → Prop}

theorem drain_safely (hstep : ∀ p, (m.step fin p).isSome = true ↔ G fin p) (p : P) :
    (m.drain fin p).isSome = true ↔ ∀ r, Draining m fin p r → G fin r := by
  cases hs : m.step fin p with
  | none =>
    rw [drain_fault hs]
    refine iff_of_false nofun fun hall => ?_
    have hsome := (hstep p).mpr (hall p .here)
    rw [hs] at hsome
    cases hsome
  | some o =>
    obtain ⟨es, p', b⟩ := o
    have hp : G fin p := (hstep p).mp (by rw [hs]; rfl)
    cases b with
    | false =>
      rw [drain_stop hs, draining_stop hs]
      exact iff_of_true rfl hp
    | true =>
      have hlt := m.descends hs
      rw [drain_step hs, Option.isSome_map, drain_safely hstep p', draining_step hs]
      exact ⟨fun h => ⟨hp, h⟩, fun h => h.2⟩
termination_by m.rank p

theorem push_safely (hstep : ∀ p, (m.step false p).isSome = true ↔ G false p) (p : P) (c : List α) :
    (m.push p c).isSome = true ↔ (c ≠ [] → ∀ r, Draining m false (m.feed p c) r → G false r) := by
  unfold push
  split
  · rename_i hempty
    exact iff_of_true rfl fun hc => absurd (List.isEmpty_iff.mp hempty) hc
  · rename_i hne
    rw [drain_safely hstep]
    exact ⟨fun h _ => h, fun h => h fun hnil => hne (List.isEmpty_iff.mpr hnil)⟩

/-- A stream has no panic just when no step in it has one. -/
theorem stream_safely (hstep : ∀ fin p, (m.step fin p).isSome = true ↔ G fin p) (p : P) (cs : List (List α)) :
    (m.stream p cs).isSome = true ↔ m.Safely G p cs := by
  induction cs generalizing p with
  | nil =>
    rw [stream, finish, Option.isSome_map, Option.isSome_map, drain_safely (hstep true)]
    rfl
  | cons c cs ih =>
    have hpush := push_safely (hstep false) p c
    rw [stream, Safely, ← hpush]
    cases hp : m.push p c with
    | none => exact iff_of_false (fun h => by cases h) fun h => Bool.false_ne_true h.1
    | some r =>
      rw [Option.bind_some, Option.isSome_map, ih r.2]
      refine ⟨fun h => ⟨rfl, fun es q heq => ?_⟩, fun h => h.2 r.1 r.2 rfl⟩
      cases heq
      exact h

end Flambeau.Stream.Machine
