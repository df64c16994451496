import Flambeau.Stream.Machine
import Flambeau.Stream.Search

namespace Flambeau.Stream.Machine

/-- A mode that passes its input on until an entry stands in it: `on s` is the mode
with `s` held, `entry` the first entry, with what stands before it, the events it
gives and the state after it, and `cut` how much is given out when there is none. -/
structure Prose (m : Machine α E P) (norm : List E → N) (on : List α → P)
    (emit : List α → List E) (entry : List α → Option (List α × List E × P))
    (cut : List α → Nat) (Calm : List α → Prop) : Prop where
  empty : emit [] = []
  joins : norm (emit a ++ (emit b ++ r)) = norm (emit (a ++ b) ++ r)
  found : entry s = some (u, es, q) → m.step false (on s) = some (emit u ++ es, q, true)
  held : entry s = none → Calm s →
    m.step false (on s) = some (emit (s.take (cut s)), on (s.drop (cut s)), decide (0 < cut s))
  rest : entry s = none → Calm s → entry (s.drop (cut s)) = none
  last : entry s = none → (m.finish (on s)).map (·.1) = some (emit s)
  calm : Calm (a ++ b) → Calm b

variable {m : Machine α E P} {norm : List E → N} {on : List α → P} {emit : List α → List E}
  {entry : List α → Option (List α × List E × P)} {cut : List α → Nat} {Calm : List α → Prop}

/-- With no entry to come, all of the input is passed on. -/
theorem Prose.ends (h : Prose m norm on emit entry cut Calm) (happend : Congruent norm)
    (hnone : entry s = none) (hcalm : Calm s) :
    (m.ending (on s)).map norm = some (norm (emit s)) := by
  have hheld := h.held hnone hcalm
  have hsplit := List.take_append_drop (cut s) s
  by_cases hcut : 0 < cut s
  · rw [decide_eq_true hcut] at hheld
    have hlt := m.descends hheld
    have hcalm' : Calm (s.drop (cut s)) := h.calm (a := s.take (cut s)) (by rwa [hsplit])
    have ih := Prose.ends h happend (h.rest hnone hcalm) hcalm'
    have hwhole : some (norm (emit (s.drop (cut s)))) =
        (some (emit (s.drop (cut s)))).map norm := rfl
    rw [hwhole] at ih
    rw [ending_step hheld, map_norm happend _ ih]
    have hjoin := h.joins (a := s.take (cut s)) (b := s.drop (cut s)) (r := [])
    rw [List.append_nil, hsplit, List.append_nil] at hjoin
    rw [Option.map_some, Option.map_some, hjoin]
  · have hzero : cut s = 0 := by omega
    rw [decide_eq_false hcut, hzero, List.take_zero, List.drop_zero, h.empty] at hheld
    have hlast := h.last hnone
    rw [ending_stop hheld]
    simp only [List.nil_append]
    rw [hlast]
    rfl
termination_by m.rank (on s)

/-- What is given out early would have been given out in front of the rest. -/
theorem Prose.moves (h : Prose m norm on emit entry cut Calm) (happend : Congruent norm)
    (hshift : entry (s ++ x) =
      (entry (s.drop (cut s) ++ x)).map fun r => (s.take (cut s) ++ r.1, r.2))
    (hcalm : entry (s ++ x) = none → Calm (s ++ x)) :
    (m.ending (on (s ++ x))).map norm =
      ((m.ending (on (s.drop (cut s) ++ x))).map (emit (s.take (cut s)) ++ ·)).map norm := by
  have hsplit := List.take_append_drop (cut s) s
  cases hentry : entry (s.drop (cut s) ++ x) with
  | some r =>
    obtain ⟨v, es, q⟩ := r
    rw [hentry] at hshift
    rw [ending_step (h.found hshift), ending_step (h.found hentry), Option.map_map, Option.map_map,
      Option.map_map]
    congr 1
    funext fs
    simp only [Function.comp_apply, List.append_assoc]
    exact h.joins.symm
  | none =>
    rw [hentry] at hshift
    have hcalm := hcalm hshift
    have hcalm' : Calm (s.drop (cut s) ++ x) := by
      apply h.calm (a := s.take (cut s))
      rw [← List.append_assoc, hsplit]
      exact hcalm
    have hrest := h.ends happend hentry hcalm'
    have hwhole : some (norm (emit (s.drop (cut s) ++ x))) =
        (some (emit (s.drop (cut s) ++ x))).map norm := rfl
    rw [hwhole] at hrest
    rw [h.ends happend hshift hcalm, map_norm happend _ hrest]
    have hjoin := h.joins (a := s.take (cut s)) (b := s.drop (cut s) ++ x) (r := [])
    rw [List.append_nil, ← List.append_assoc, hsplit, List.append_nil] at hjoin
    rw [Option.map_some, Option.map_some, hjoin]

/-- A state whose last step leaves nothing to do. -/
theorem finish_last (hstep : m.step true p = some (es, q, b))
    (hstop : m.step true q = some ([], q, false)) (hflush : m.flush q = ([], r)) :
    (m.finish p).map (·.1) = some es := by
  unfold finish
  cases b with
  | false =>
    rw [drain_stop hstep]
    simp [hflush]
  | true =>
    rw [drain_step hstep, drain_stop hstop]
    simp [hflush]

/-- The entry at the earliest of some tags, which gives no event of its own. -/
def tagEntry [DecidableEq α] (tags : List (List α)) (after : List α → List α → P) (s : List α) :
    Option (List α × List E × P) :=
  (earliest tags s).map fun r => (s.take r.1, [], after r.2 (s.drop (r.1 + r.2.length)))

variable [DecidableEq α] {tags : List (List α)} {after : List α → List α → P} {s : List α}

theorem tagEntry_none : tagEntry (E := E) tags after s = none ↔ earliest tags s = none := by
  rw [tagEntry, Option.map_eq_none_iff]

theorem tagEntry_shift (h : earliest tags s = none) (x : List α) :
    tagEntry (E := E) tags after (s ++ x) =
      (tagEntry tags after (s.drop (tailStart (opensTag tags) s) ++ x)).map
        fun r => (s.take (tailStart (opensTag tags) s) ++ r.1, r.2) := by
  have hle := tailStart_le (opensTag tags) s
  unfold tagEntry
  rw [earliest_shift h x, Option.map_map, Option.map_map]
  congr 1
  funext r
  obtain ⟨p, t⟩ := r
  generalize tailStart (opensTag tags) s = e at hle ⊢
  have htake : (s ++ x).take (e + p) = s.take e ++ (s.drop e ++ x).take p := by
    rw [List.take_add, List.take_append_of_le_length hle, List.drop_append_of_le_length hle]
  have hdrop : (s ++ x).drop (e + p + t.length) = (s.drop e ++ x).drop (p + t.length) := by
    rw [Nat.add_assoc, ← List.drop_drop, List.drop_append_of_le_length hle]
  simp only [Function.comp_apply, htake, hdrop]

end Flambeau.Stream.Machine
