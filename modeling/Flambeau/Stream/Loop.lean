import Flambeau.Stream.Account

namespace Flambeau.Stream

/-- A push parser of which nothing is known: no step need make progress. -/
structure Loop (α E P : Type) where
  feed : P → List α → P
  step : Bool → P → Option (List E × P × Bool)
  flush : P → List E × P

namespace Loop

variable (l : Loop α E P)

/-- `drain`, for so many steps; without a result where they are not enough, or one panics. -/
def drain (fin : Bool) : Nat → P → Option (List E × P)
  | 0, _ => none
  | steps + 1, p =>
    match l.step fin p with
    | none => none
    | some (es, p', false) => some (es, p')
    | some (es, p', true) => (drain fin steps p').map fun r => (es ++ r.1, r.2)

def push (steps : Nat) (p : P) (chunk : List α) : Option (List E × P) :=
  if chunk.isEmpty then some ([], p) else l.drain false steps (l.feed p chunk)

def finish (steps : Nat) (p : P) : Option (List E × P) :=
  (l.drain true steps p).map fun r => (r.1 ++ (l.flush r.2).1, (l.flush r.2).2)

/-- A `push` for each chunk and the `finish`, each of so many steps at most. -/
def run (steps : Nat) (p : P) : List (List α) → Option (List E × P)
  | [] => l.finish steps p
  | c :: cs => (l.push steps p c).bind fun r => (run steps r.2 cs).map fun f => (r.1 ++ f.1, f.2)

variable {l}

/-- A machine whose steps are those of the loop. -/
structure Is (l : Loop α E P) (m : Machine α E P) : Prop where
  feed : l.feed = m.feed
  step : l.step = m.step
  flush : l.flush = m.flush

variable {m : Machine α E P}

/-- The rank of a state bounds the steps of a drain. -/
theorem Is.drain (h : Is l m) (fin : Bool) (hrank : m.rank p < steps) : l.drain fin steps p = m.drain fin p := by
  induction steps generalizing p with
  | zero => exact absurd hrank (Nat.not_lt_zero _)
  | succ steps ih =>
    rw [Loop.drain, h.step]
    cases hs : m.step fin p with
    | none => rw [Machine.drain_fault hs]
    | some o =>
      obtain ⟨es, p', b⟩ := o
      cases b with
      | false => rw [Machine.drain_stop hs]
      | true =>
        have hlt := m.descends hs
        rw [Machine.drain_step hs]
        dsimp only
        rw [ih (by omega)]

/-- Enough steps run the machine. -/
theorem Is.run (h : Is l m) (p : P) (cs : List (List α)) : ∃ n, ∀ steps, n ≤ steps → l.run steps p cs = m.run p cs := by
  induction cs generalizing p with
  | nil =>
    refine ⟨m.rank p + 1, fun steps hle => ?_⟩
    rw [Loop.run, Machine.run, Loop.finish, Machine.finish, h.drain true hle, h.flush]
  | cons c cs ih =>
    have hpush : ∀ steps, m.rank (m.feed p c) < steps → l.push steps p c = m.push p c := by
      intro steps hlt
      rw [Loop.push, Machine.push, h.feed, h.drain false hlt]
    cases hp : m.push p c with
    | none =>
      refine ⟨m.rank (m.feed p c) + 1, fun steps hle => ?_⟩
      rw [Loop.run, Machine.run, hpush steps hle, hp]
      rfl
    | some r =>
      obtain ⟨n, hn⟩ := ih r.2
      refine ⟨max (m.rank (m.feed p c) + 1) n, fun steps hle => ?_⟩
      rw [Loop.run, Machine.run, hpush steps (by omega), hp, Option.bind_some, Option.bind_some, hn steps (by omega)]

end Loop
end Flambeau.Stream
