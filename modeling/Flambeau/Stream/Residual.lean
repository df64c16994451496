import Flambeau.Stream.Machine

namespace Flambeau.Stream.Machine

/-- What a machine still has to show for the input to come: `Pos p x o` says that in the state `p`, with
`x` to come, it shows `o`. A step shows the front of it, and at the end of the input nothing is left. -/
structure Shows (m : Machine α E P) (obs : List E → List O) (Pos : P → List α → List O → Prop) : Prop where
  append : obs (es ++ fs) = obs es ++ obs fs
  fed : Pos p (c ++ x) o → Pos (m.feed p c) x o
  step : Pos p x o → (fin = true → x = []) → m.step fin p = some (es, p', b) →
    ∃ o', o = obs es ++ o' ∧ Pos p' x o' ∧ (fin = true → b = false → o' = obs (m.flush p').1)

variable {m : Machine α E P} {obs : List E → List O} {Pos : P → List α → List O → Prop}

theorem Shows.drain (h : Shows m obs Pos) (hp : Pos p x o) (hfin : fin = true → x = [])
    (hdrain : m.drain fin p = some (es, q)) :
    ∃ o', o = obs es ++ o' ∧ Pos q x o' ∧ (fin = true → o' = obs (m.flush q).1) := by
  cases hs : m.step fin p with
  | none =>
    rw [drain_fault hs] at hdrain
    cases hdrain
  | some r =>
    obtain ⟨fs, p', b⟩ := r
    obtain ⟨o', ho, hp', hlast⟩ := h.step hp hfin hs
    cases b with
    | false =>
      rw [drain_stop hs] at hdrain
      cases hdrain
      exact ⟨o', ho, hp', fun hf => hlast hf rfl⟩
    | true =>
      have hlt := m.descends hs
      rw [drain_step hs] at hdrain
      obtain ⟨⟨gs, q'⟩, hrest, heq⟩ := Option.map_eq_some_iff.mp hdrain
      cases heq
      obtain ⟨o'', ho', hq, hend⟩ := Shows.drain h hp' hfin hrest
      exact ⟨o'', by rw [ho, ho', h.append, List.append_assoc], hq, hend⟩
termination_by m.rank p

/-- A stream of the input shows what the state it starts in has to show. -/
theorem Shows.stream (h : Shows m obs Pos) {cs : List (List α)} (hp : Pos p cs.flatten o)
    (hs : m.stream p cs = some es) : obs es = o := by
  induction cs generalizing p o es with
  | nil =>
    obtain ⟨⟨gs, q⟩, hfinish, rfl⟩ := Option.map_eq_some_iff.mp hs
    obtain ⟨⟨fs, p'⟩, hdrain, heq⟩ := Option.map_eq_some_iff.mp hfinish
    cases heq
    obtain ⟨o', ho, -, hend⟩ := h.drain hp (fun _ => rfl) hdrain
    rw [ho, hend rfl, h.append]
  | cons c cs ih =>
    obtain ⟨⟨fs, q⟩, hpush, hrest⟩ := Option.bind_eq_some_iff.mp hs
    obtain ⟨gs, hgs, rfl⟩ := Option.map_eq_some_iff.mp hrest
    unfold push at hpush
    split at hpush
    · rename_i hempty
      cases hpush
      rw [List.isEmpty_iff.mp hempty] at hp
      exact ih hp hgs
    · obtain ⟨o', ho, hq, -⟩ := h.drain (h.fed hp) (fun hf => absurd hf Bool.false_ne_true) hpush
      rw [h.append, ho, ih hq hgs]

/-- Where no step panics, nor does the stream. -/
theorem Shows.total (h : Shows m obs Pos)
    (hsome : ∀ fin p x o, Pos p x o → (fin = true → x = []) → (m.step fin p).isSome = true) {cs : List (List α)}
    (hp : Pos p cs.flatten o) : ∃ es, m.stream p cs = some es := by
  have hdrain : ∀ fin p x o, Pos p x o → (fin = true → x = []) → ∃ r, m.drain fin p = some r :=
    fun fin p x o hp hfin => drains fin p x o hp hfin
  induction cs generalizing p o with
  | nil =>
    obtain ⟨r, hr⟩ := hdrain true p _ o hp fun _ => rfl
    exact ⟨_, by rw [Machine.stream, finish, hr]; rfl⟩
  | cons c cs ih =>
    rw [Machine.stream, push]
    split
    · rename_i hempty
      rw [List.isEmpty_iff.mp hempty] at hp
      obtain ⟨es, hes⟩ := ih hp
      exact ⟨_, by rw [Option.bind_some, hes]; rfl⟩
    · obtain ⟨⟨es, q⟩, hr⟩ := hdrain false _ _ o (h.fed hp) (fun h => by cases h)
      obtain ⟨o', -, hq, -⟩ := h.drain (h.fed hp) (fun hf => absurd hf Bool.false_ne_true) hr
      obtain ⟨fs, hfs⟩ := ih hq
      exact ⟨_, by rw [hr, Option.bind_some, hfs]; rfl⟩
where
  drains (fin : Bool) (p : P) (x : List α) (o : List O) (hp : Pos p x o) (hfin : fin = true → x = []) :
      ∃ r, m.drain fin p = some r := by
    obtain ⟨⟨es, p', b⟩, hs⟩ := Option.isSome_iff_exists.mp (hsome fin p x o hp hfin)
    cases b with
    | false => exact ⟨_, drain_stop hs⟩
    | true =>
      have hlt := m.descends hs
      obtain ⟨o', -, hp', -⟩ := h.step hp hfin hs
      obtain ⟨r, hr⟩ := drains fin p' x o' hp' hfin
      exact ⟨_, by rw [drain_step hs, hr]; rfl⟩
  termination_by m.rank p

/-! A text that is cut. -/

/-- Behind what has come in full. -/
theorem cut_behind {s x w r : List α} (h : s ++ x = w ++ r) (hle : w.length ≤ s.length) : s.drop w.length ++ x = r := by
  rw [← List.drop_append_of_le_length hle, h, List.drop_left]

/-- Something is still to come. -/
theorem cut_short {s x w r : List α} (h : s ++ x = w ++ r) (hlt : s.length < w.length) : x ≠ [] := by
  rintro rfl
  have hlen := congrArg List.length h
  rw [List.append_nil, List.length_append] at hlen
  omega

end Flambeau.Stream.Machine
