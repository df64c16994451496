import Flambeau.Stream.Machine

namespace Flambeau.Stream.Machine

/-- A mode that gives out plain input as it is, in pieces: `on s` is the mode with `s` held. -/
structure Verbatim (m : Machine α E P) (on : List α → P) (emit : List α → List E) (Plain : List α → Prop) : Prop where
  fed : m.feed (on s) x = on (s ++ x)
  front : Plain (a ++ b) → Plain a
  back : Plain (a ++ b) → Plain b
  passes : Plain s → ∃ n b, m.step false (on s) = some (emit (s.take n), on (s.drop n), b)
  ends : Plain s → ∃ b, m.step true (on s) = some (emit s, on [], b)
  spent : (m.flush (on [])).1 = []

variable {m : Machine α E P} {on : List α → P} {emit : List α → List E} {Plain : List α → Prop}

/-- Pieces of a text, and what is still held of it. -/
def Pieces (emit : List α → List E) (s : List α) (es : List E) (held : List α) : Prop :=
  ∃ pieces : List (List α), es = pieces.flatMap emit ∧ pieces.flatten ++ held = s

theorem Pieces.nil (s : List α) : Pieces emit s [] s := ⟨[], rfl, rfl⟩

theorem Pieces.take (n : Nat) (s : List α) : Pieces emit s (emit (s.take n)) (s.drop n) :=
  ⟨[s.take n], by simp, by simp⟩

theorem Pieces.append (h : Pieces emit s es held) (hx : Pieces emit (held ++ x) fs rest) :
    Pieces emit (s ++ x) (es ++ fs) rest := by
  obtain ⟨front, rfl, rfl⟩ := h
  obtain ⟨back, rfl, heq⟩ := hx
  refine ⟨front ++ back, List.flatMap_append.symm, ?_⟩
  rw [List.flatten_append, List.append_assoc, heq, List.append_assoc]

theorem Verbatim.drain (h : Verbatim m on emit Plain) (hs : Plain s) :
    ∃ es r, m.drain false (on s) = some (es, on r) ∧ Pieces emit s es r := by
  obtain ⟨n, b, hstep⟩ := h.passes hs
  cases b with
  | false => exact ⟨_, _, drain_stop hstep, .take n s⟩
  | true =>
    have hlt := m.descends hstep
    have hrest : Plain (s.drop n) := h.back (a := s.take n) (by rwa [List.take_append_drop])
    obtain ⟨es, r, hdrain, hpieces⟩ := h.drain hrest
    refine ⟨emit (s.take n) ++ es, r, ?_, ?_⟩
    · rw [drain_step hstep, hdrain]
      rfl
    · have happ := (@Pieces.take _ _ emit n s).append (x := []) (by rwa [List.append_nil])
      rwa [List.append_nil] at happ
termination_by m.rank (on s)

theorem Verbatim.push (h : Verbatim m on emit Plain) (hs : Plain (s ++ x)) :
    ∃ es r, m.push (on s) x = some (es, on r) ∧ Pieces emit (s ++ x) es r := by
  unfold Machine.push
  split
  · rename_i hempty
    rw [List.isEmpty_iff.mp hempty, List.append_nil]
    exact ⟨[], s, rfl, .nil s⟩
  · rw [h.fed]
    exact h.drain hs

theorem Verbatim.finish (h : Verbatim m on emit Plain) (hs : Plain s) :
    ∃ es q, m.finish (on s) = some (es, q) ∧ Pieces emit s es [] := by
  have hnil : Plain [] := h.front (b := s) hs
  have hwhole : Pieces emit s (emit s) [] := ⟨[s], by simp, by simp⟩
  obtain ⟨b, hstep⟩ := h.ends hs
  unfold Machine.finish
  cases b with
  | false =>
    rw [drain_stop hstep]
    refine ⟨_, _, rfl, ?_⟩
    dsimp only
    rw [h.spent, List.append_nil]
    exact hwhole
  | true =>
    obtain ⟨b', hlast⟩ := h.ends hnil
    cases b' with
    | true => exact absurd (m.descends hlast) (Nat.lt_irrefl _)
    | false =>
      rw [drain_step hstep, drain_stop hlast]
      refine ⟨_, _, rfl, ?_⟩
      dsimp only
      rw [h.spent, List.append_nil]
      have happ := hwhole.append (x := []) (@Pieces.take _ _ emit 0 [])
      rwa [List.append_nil] at happ

/-- Any chunks of a plain text are given out as they are. -/
theorem Verbatim.stream (h : Verbatim m on emit Plain) (cs : List (List α)) (hs : Plain (s ++ cs.flatten)) :
    ∃ es, m.stream (on s) cs = some es ∧ Pieces emit (s ++ cs.flatten) es [] := by
  induction cs generalizing s with
  | nil =>
    rw [List.flatten_nil, List.append_nil] at hs ⊢
    obtain ⟨es, q, hfinish, hpieces⟩ := h.finish hs
    refine ⟨es, ?_, hpieces⟩
    rw [Machine.stream, hfinish]
    rfl
  | cons c cs ih =>
    rw [List.flatten_cons, ← List.append_assoc] at hs ⊢
    obtain ⟨es, r, hpush, hpieces⟩ := h.push (h.front hs)
    have hrest : Plain (r ++ cs.flatten) := by
      obtain ⟨pieces, _, hsplit⟩ := hpieces
      rw [← hsplit, List.append_assoc] at hs
      exact h.back hs
    obtain ⟨fs, hstream, hlater⟩ := ih hrest
    refine ⟨es ++ fs, ?_, hpieces.append hlater⟩
    rw [Machine.stream, hpush, Option.bind_some, hstream]
    rfl

end Flambeau.Stream.Machine
