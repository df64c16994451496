import Flambeau.Stream.Judgement

namespace Flambeau.Stream.Machine

/-- What a step gave out, and the pieces of the input it took. -/
structure Entry (E K : Type) where
  events : List E
  pieces : List K

/-- The pieces that a step takes between two states, and those of the flush. -/
structure Account (P K : Type) where
  step : P → P → List K
  flush : P → List K

/-- The machine with an entry for each step. -/
def logged (m : Machine α E P) (a : Account P K) : Machine α (Entry E K) P where
  feed := m.feed
  step fin p := (m.step fin p).map fun r => ([⟨r.1, a.step p r.2.1⟩], r.2)
  flush p := ([⟨(m.flush p).1, a.flush p⟩], (m.flush p).2)
  rank := m.rank
  descends h := by
    obtain ⟨⟨es, p', b⟩, hr, heq⟩ := Option.map_eq_some_iff.mp h
    cases heq
    exact m.descends hr
  feed_feed := m.feed_feed

/-- A stream, with the state behind it. -/
def run (m : Machine α E P) (p : P) : List (List α) → Option (List E × P)
  | [] => m.finish p
  | c :: cs => (m.push p c).bind fun r => (run m r.2 cs).map fun f => (r.1 ++ f.1, f.2)

theorem stream_eq_run (m : Machine α E P) (p : P) (cs : List (List α)) : m.stream p cs = (m.run p cs).map (·.1) := by
  induction cs generalizing p with
  | nil => rfl
  | cons c cs ih =>
    rw [stream, run, Option.map_bind]
    congr 1
    funext r
    rw [ih, Function.comp_apply, Option.map_map, Option.map_map]
    rfl

/-- The events of a log. -/
def unlog (r : List (Entry E K) × P) : List E × P := (r.1.flatMap Entry.events, r.2)

variable {m : Machine α E P} {a : Account P K}

theorem logged_step (h : m.step fin p = some (es, p', b)) :
    (m.logged a).step fin p = some ([⟨es, a.step p p'⟩], p', b) := by
  unfold logged
  dsimp only
  rw [h]
  rfl

theorem drain_logged (fin : Bool) (p : P) : m.drain fin p = ((m.logged a).drain fin p).map unlog := by
  cases hs : m.step fin p with
  | none =>
    have hlog : (m.logged a).step fin p = none := congrArg (Option.map _) hs
    rw [drain_fault hs, drain_fault hlog]
    rfl
  | some o =>
    obtain ⟨es, p', b⟩ := o
    have hlog := logged_step (a := a) hs
    cases b with
    | false =>
      rw [drain_stop hs, drain_stop hlog]
      simp [unlog]
    | true =>
      have hlt := m.descends hs
      rw [drain_step hs, drain_step hlog, drain_logged fin p', Option.map_map, Option.map_map]
      rfl
termination_by m.rank p

theorem push_logged (p : P) (c : List α) : m.push p c = ((m.logged a).push p c).map unlog := by
  unfold push
  split
  · rfl
  · exact drain_logged false _

theorem finish_logged (p : P) : m.finish p = ((m.logged a).finish p).map unlog := by
  unfold finish
  rw [drain_logged true p, Option.map_map, Option.map_map]
  congr 1
  funext r
  simp [unlog, logged]

/-- A log has the events of the run, and leaves its state. -/
theorem run_logged (p : P) (cs : List (List α)) : m.run p cs = ((m.logged a).run p cs).map unlog := by
  induction cs generalizing p with
  | nil => exact finish_logged p
  | cons c cs ih =>
    rw [run, run, push_logged, Option.map_bind, Option.bind_map]
    congr 1
    funext r
    rw [Function.comp_apply, Function.comp_apply, ih, Option.map_map, Option.map_map]
    congr 1
    funext f
    simp [unlog]

/-! Every part of the input is in one piece, or still held. -/

/-- What is held goes into pieces, step by step. -/
structure Conserves (m : Machine α E P) (a : Account P K) (held : P → List α) (part : K → List α) : Prop where
  feed : held (m.feed p x) = held p ++ x
  step : m.step fin p = some (es, p', b) → held p = (a.step p p').flatMap part ++ held p'
  flush : ∀ p, held p = (a.flush p).flatMap part ++ held (m.flush p).2

/-- The parts of a log's pieces. -/
def parts (part : K → List α) (log : List (Entry E K)) : List α :=
  log.flatMap fun e => e.pieces.flatMap part

theorem parts_append (part : K → List α) (log more : List (Entry E K)) :
    parts part (log ++ more) = parts part log ++ parts part more :=
  List.flatMap_append

variable {held : P → List α} {part : K → List α}

theorem Conserves.drain (hm : Conserves m a held part) (h : (m.logged a).drain fin p = some (log, q)) :
    held p = parts part log ++ held q := by
  rw [Machine.drain] at h
  split at h
  · cases h
  · rename_i hs
    cases h
    obtain ⟨⟨es, p', b⟩, hr, heq⟩ := Option.map_eq_some_iff.mp hs
    cases heq
    rw [hm.step hr]
    simp [parts]
  · rename_i hs
    have hlt := (m.logged a).descends hs
    obtain ⟨⟨es, p', b⟩, hr, heq⟩ := Option.map_eq_some_iff.mp hs
    cases heq
    obtain ⟨f, hf, heq⟩ := Option.map_eq_some_iff.mp h
    cases heq
    rw [hm.step hr, hm.drain hf, parts_append, List.append_assoc]
    simp [parts]
termination_by (m.logged a).rank p

theorem Conserves.run (hm : Conserves m a held part) (h : (m.logged a).run p cs = some (log, q)) :
    held p ++ cs.flatten = parts part log ++ held q := by
  induction cs generalizing p log with
  | nil =>
    obtain ⟨r, hr, heq⟩ := Option.map_eq_some_iff.mp h
    cases heq
    rw [List.flatten_nil, List.append_nil, hm.drain hr, hm.flush r.2, parts_append, List.append_assoc]
    simp [parts, logged]
  | cons c cs ih =>
    obtain ⟨r, hr, hrest⟩ := Option.bind_eq_some_iff.mp h
    obtain ⟨f, hf, heq⟩ := Option.map_eq_some_iff.mp hrest
    cases heq
    have hfirst : held p ++ c = parts part r.1 ++ held r.2 := by
      unfold push at hr
      split at hr
      · rename_i hempty
        cases hr
        rw [List.isEmpty_iff.mp hempty, List.append_nil]
        rfl
      · rw [← hm.drain hr]
        exact hm.feed.symm
    rw [List.flatten_cons, ← List.append_assoc, hfirst, List.append_assoc, ih hf, parts_append, List.append_assoc]

/-! What holds of every entry. -/

section Entries

variable {given : Entry E K → Prop} {clean : P → Prop} {G F : P → Prop}

theorem drain_given (hstep : ∀ fin p es p' b, m.step fin p = some (es, p', b) → (given ⟨es, a.step p p'⟩ ↔ G p))
    (h : (m.logged a).drain fin p = some (log, q)) :
    (∀ e ∈ log, given e) ↔ ∀ r, Draining m fin p r → G r := by
  rw [Machine.drain] at h
  split at h
  · cases h
  · rename_i hs
    cases h
    obtain ⟨⟨es, p', b⟩, hr, heq⟩ := Option.map_eq_some_iff.mp hs
    cases heq
    rw [draining_stop hr, ← hstep _ _ _ _ _ hr]
    simp
  · rename_i hs
    have hlt := (m.logged a).descends hs
    obtain ⟨⟨es, p', b⟩, hr, heq⟩ := Option.map_eq_some_iff.mp hs
    cases heq
    obtain ⟨f, hf, heq⟩ := Option.map_eq_some_iff.mp h
    cases heq
    rw [draining_step hr, ← hstep _ _ _ _ _ hr, ← drain_given hstep hf]
    simp
termination_by (m.logged a).rank p

/-- Every entry is as it should be, and the run leaves a clean state, just when each step and the
flush see to it. -/
theorem run_given (hstep : ∀ fin p es p' b, m.step fin p = some (es, p', b) → (given ⟨es, a.step p p'⟩ ↔ G p))
    (hflush : ∀ p, given ⟨(m.flush p).1, a.flush p⟩ ∧ clean (m.flush p).2 ↔ F p)
    (h : (m.logged a).run p cs = some (log, q)) :
    (∀ e ∈ log, given e) ∧ clean q ↔ Throughout m G F p cs := by
  induction cs generalizing p log with
  | nil =>
    obtain ⟨⟨es, r⟩, hr, heq⟩ := Option.map_eq_some_iff.mp h
    cases heq
    have hdrain : m.drain true p = some (es.flatMap Entry.events, r) := by
      rw [drain_logged (a := a), hr]
      rfl
    have hends : (∀ es' q', m.drain true p = some (es', q') → F q') ↔ F r := by
      constructor
      · intro hall
        exact hall _ _ hdrain
      · intro hF es' q' hd
        rw [hdrain] at hd
        cases hd
        exact hF
    rw [Throughout, hends, ← drain_given hstep hr, ← hflush r]
    simp only [List.mem_append, or_imp, forall_and, and_assoc, logged, List.mem_singleton, forall_eq]
  | cons c cs ih =>
    obtain ⟨⟨es, r⟩, hr, hrest⟩ := Option.bind_eq_some_iff.mp h
    obtain ⟨f, hf, heq⟩ := Option.map_eq_some_iff.mp hrest
    cases heq
    have hpush : m.push p c = some (es.flatMap Entry.events, r) := by
      rw [push_logged (a := a), hr]
      rfl
    have hlater : (∀ es' q', m.push p c = some (es', q') → Throughout m G F q' cs) ↔ Throughout m G F r cs := by
      constructor
      · intro hall
        exact hall _ _ hpush
      · intro hrest es' q' hd
        rw [hpush] at hd
        cases hd
        exact hrest
    have hfirst : (c ≠ [] → ∀ s, Draining m false (m.feed p c) s → G s) ↔ ∀ e ∈ es, given e := by
      unfold push at hr
      split at hr
      · rename_i hempty
        cases hr
        exact iff_of_true (fun hc => absurd (List.isEmpty_iff.mp hempty) hc) nofun
      · rename_i hne
        have hc : c ≠ [] := fun hnil => hne (List.isEmpty_iff.mpr hnil)
        rw [drain_given hstep hr]
        exact ⟨fun hall => hall hc, fun hall _ => hall⟩
    rw [Throughout, hlater, hfirst, ← ih hf]
    simp only [List.mem_append, or_imp, forall_and, and_assoc]

end Entries

end Flambeau.Stream.Machine
