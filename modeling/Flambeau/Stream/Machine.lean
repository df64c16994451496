namespace Flambeau.Stream

/-- A push parser: input is appended to what it holds, and it is stepped until a
step makes no progress. A step that panics has no result. -/
structure Machine (α E P : Type) where
  feed : P → List α → P
  /-- The events of a step, the state after it and whether it made progress; the
  flag says whether the input has ended. -/
  step : Bool → P → Option (List E × P × Bool)
  /-- What is given out when the input has ended and no step is left. -/
  flush : P → List E × P
  rank : P → Nat
  descends : step fin p = some (es, p', true) → rank p' < rank p
  feed_feed : feed (feed p x) y = feed p (x ++ y)

namespace Machine

variable (m : Machine α E P)

/-- `drain`. -/
def drain (fin : Bool) (p : P) : Option (List E × P) :=
  match _h : m.step fin p with
  | none => none
  | some (es, p', false) => some (es, p')
  | some (es, p', true) => (drain fin p').map fun r => (es ++ r.1, r.2)
termination_by m.rank p
decreasing_by exact m.descends _h

/-- `push`; an empty chunk is a no-op. -/
def push (p : P) (chunk : List α) : Option (List E × P) :=
  if chunk.isEmpty then some ([], p) else m.drain false (m.feed p chunk)

/-- `finish`. -/
def finish (p : P) : Option (List E × P) :=
  (m.drain true p).map fun r => (r.1 ++ (m.flush r.2).1, (m.flush r.2).2)

/-- The events of a `push` for each chunk and the `finish`. -/
def stream (p : P) : List (List α) → Option (List E)
  | [] => (m.finish p).map (·.1)
  | c :: cs => (m.push p c).bind fun r => (stream r.2 cs).map (r.1 ++ ·)

/-- What is still given out when no more input comes. -/
def ending (p : P) : Option (List E) :=
  (m.drain false p).bind fun r => (m.finish r.2).map fun f => r.1 ++ f.1

variable {m}

theorem drain_fault (h : m.step fin p = none) : m.drain fin p = none := by
  rw [drain]
  split
  · rfl
  · rename_i hs
    rw [h] at hs
    cases hs
  · rename_i hs
    rw [h] at hs
    cases hs

theorem drain_stop (h : m.step fin p = some (es, p', false)) : m.drain fin p = some (es, p') := by
  rw [drain]
  split
  · rename_i hs
    rw [h] at hs
    cases hs
  · rename_i hs
    rw [h] at hs
    cases hs
    rfl
  · rename_i hs
    rw [h] at hs
    cases hs

theorem drain_step (h : m.step fin p = some (es, p', true)) :
    m.drain fin p = (m.drain fin p').map fun r => (es ++ r.1, r.2) := by
  rw [drain]
  split
  · rename_i hs
    rw [h] at hs
    cases hs
  · rename_i hs
    rw [h] at hs
    cases hs
  · rename_i hs
    rw [h] at hs
    cases hs
    rfl

theorem ending_stop (h : m.step false p = some (es, p', false)) :
    m.ending p = (m.finish p').map fun f => es ++ f.1 := by
  unfold ending
  rw [drain_stop h]
  rfl

theorem ending_step (h : m.step false p = some (es, p', true)) :
    m.ending p = (m.ending p').map (es ++ ·) := by
  unfold ending
  rw [drain_step h, Option.bind_map]
  cases m.drain false p' with
  | none => rfl
  | some r =>
    simp only [Option.bind_some, Function.comp_apply]
    rw [Option.map_map]
    simp only [Function.comp_def, List.append_assoc]

theorem stream_one (h : x ≠ []) : m.stream p [x] = m.ending (m.feed p x) := by
  have hne : x.isEmpty = false := List.isEmpty_eq_false_iff.mpr h
  simp only [stream, push, hne, Bool.false_eq_true, if_false, ending, Option.map_map,
    Function.comp_def]

/-! Invariance under chunking. -/

/-- A step may be taken before the input to come or with it; the state after it
is good again. Events are compared through `norm`. -/
def Moves (m : Machine α E P) (norm : List E → N) (Good : P → List α → Prop) (p : P)
    (x : List α) : Prop :=
  ∃ es p' b, m.step false p = some (es, p', b) ∧ Good p' x ∧
    (m.ending (m.feed p x)).map norm = ((m.ending (m.feed p' x)).map (es ++ ·)).map norm

/-- Nothing a machine does on what it holds, in a good state, depends on where the
input was cut. -/
structure Steady (m : Machine α E P) (norm : List E → N) (Good : P → List α → Prop) : Prop where
  fed : Good p (x ++ y) → Good (m.feed p x) y
  moves : Good p x → x ≠ [] → m.Moves norm Good p x

variable {norm : List E → N} {Good : P → List α → Prop}

/-- A step that the input to come does not change. -/
theorem moves_step (hstep : m.step false p = some (es, p', true)) (hgood : Good p' x)
    (hwith : m.step false (m.feed p x) = some (es, m.feed p' x, true)) : m.Moves norm Good p x := by
  refine ⟨es, p', true, hstep, hgood, ?_⟩
  rw [ending_step hwith]

/-- A state that waits for more. -/
theorem moves_wait (hstep : m.step false p = some ([], p, false)) (hgood : Good p x) :
    m.Moves norm Good p x := by
  refine ⟨[], p, false, hstep, hgood, ?_⟩
  simp

/-- Streams that compare equal do so after any others. -/
def Congruent (norm : List E → N) : Prop :=
  ∀ es fs gs, norm fs = norm gs → norm (es ++ fs) = norm (es ++ gs)

theorem map_norm (happend : Congruent norm) (es : List E) {o o' : Option (List E)} (h : o.map norm = o'.map norm) :
    (o.map (es ++ ·)).map norm = (o'.map (es ++ ·)).map norm := by
  cases o with
  | none =>
    cases o' with
    | none => rfl
    | some b => cases h
  | some a =>
    cases o' with
    | none => cases h
    | some b =>
      simp only [Option.map_some, Option.some.injEq] at h ⊢
      exact happend es a b h

/-- Draining first, or with the rest of the input. -/
theorem Steady.drain (hm : Steady m norm Good) (happend : Congruent norm)
    (hg : Good p x) (hx : x ≠ []) :
    ∃ es p', m.drain false p = some (es, p') ∧ Good p' x ∧
      (m.ending (m.feed p x)).map norm = ((m.ending (m.feed p' x)).map (es ++ ·)).map norm := by
  obtain ⟨es, p', b, hstep, hgood, hend⟩ := hm.moves hg hx
  cases b with
  | false => exact ⟨es, p', drain_stop hstep, hgood, hend⟩
  | true =>
    have hlt := m.descends hstep
    obtain ⟨fs, q, hdrain, hq, hrest⟩ := Steady.drain hm happend hgood hx
    refine ⟨es ++ fs, q, ?_, hq, ?_⟩
    · rw [drain_step hstep, hdrain]
      rfl
    · rw [hend, map_norm happend es hrest, Option.map_map (es ++ ·)]
      simp only [Function.comp_def, List.append_assoc]
termination_by m.rank p

/-- Any chunks, or all the input at once. -/
theorem Steady.chunks (hm : Steady m norm Good) (happend : Congruent norm)
    (hcs : ∀ c ∈ cs, c ≠ []) (hg : Good p cs.flatten) :
    (m.stream p cs).map norm = (m.stream p [cs.flatten]).map norm := by
  induction cs generalizing p with
  | nil =>
    simp only [stream, push, List.flatten_nil, List.isEmpty_nil, if_true, Option.bind_some,
      List.nil_append, Option.map_map]
    rfl
  | cons c cs ih =>
    have hc : c ≠ [] := hcs c List.mem_cons_self
    have hrest : ∀ d ∈ cs, d ≠ [] := fun d hd => hcs d (List.mem_cons_of_mem c hd)
    cases cs with
    | nil => rw [List.flatten_cons, List.flatten_nil, List.append_nil]
    | cons d ds =>
      rw [List.flatten_cons] at hg ⊢
      have hd : d ≠ [] := hrest d List.mem_cons_self
      have hx : (d :: ds).flatten ≠ [] := by
        rw [List.flatten_cons]
        intro hnil
        exact hd (List.append_eq_nil_iff.mp hnil).1
      have hcx : c ++ (d :: ds).flatten ≠ [] := by
        intro hnil
        exact hc (List.append_eq_nil_iff.mp hnil).1
      obtain ⟨es, p', hdrain, hgood, hend⟩ := hm.drain happend (hm.fed hg) hx
      have hpush : m.push p c = some (es, p') := by
        unfold push
        rw [List.isEmpty_eq_false_iff.mpr hc]
        exact hdrain
      have hfirst : m.stream p (c :: d :: ds) = (m.stream p' (d :: ds)).map (es ++ ·) := by
        rw [stream, hpush]
        rfl
      rw [hfirst, map_norm happend es (ih hrest hgood), stream_one hcx, ← m.feed_feed, hend,
        stream_one hx]

/-! The end of the input, before a drain or behind it. -/

theorem finish_step (h : m.step true p = some (es, p', true)) :
    (m.finish p).map (·.1) = ((m.finish p').map (·.1)).map (es ++ ·) := by
  rw [finish, drain_step h, finish]
  cases m.drain true p' with
  | none => rfl
  | some r => simp only [Option.map_some, List.append_assoc]

/-- Where each step is one that the end of the input does not change, or nothing is left to
compare, a drain before `finish` changes nothing. -/
theorem ending_finish {I : P → Prop} (happend : Congruent norm)
    (hstep : ∀ p, I p → (m.ending p).map norm = ((m.finish p).map (·.1)).map norm ∨
      ∃ es p', m.step false p = some (es, p', true) ∧ m.step true p = some (es, p', true) ∧ I p') (hp : I p) :
    (m.ending p).map norm = ((m.finish p).map (·.1)).map norm := by
  rcases hstep p hp with h | ⟨es, p', hfalse, htrue, hp'⟩
  · exact h
  · have hlt := m.descends hfalse
    rw [ending_step hfalse, finish_step htrue]
    exact map_norm happend es (ending_finish happend hstep hp')
termination_by m.rank p

theorem ending_wait (h : m.step false p = some ([], p, false)) : m.ending p = (m.finish p).map (·.1) := by
  rw [ending_stop h]
  rfl

/-! What the steps keep. -/

theorem drain_keeps {I : P → Prop}
    (hstep : ∀ p es p' b, I p → m.step fin p = some (es, p', b) → I p') (hp : I p)
    (h : m.drain fin p = some (es, q)) : I q := by
  rw [drain] at h
  split at h
  · cases h
  · rename_i hs
    cases h
    exact hstep _ _ _ _ hp hs
  · rename_i hs
    have hlt := m.descends hs
    obtain ⟨r, hr, heq⟩ := Option.map_eq_some_iff.mp h
    cases heq
    exact drain_keeps hstep (hstep _ _ _ _ hp hs) hr
termination_by m.rank p

/-! What the events say, from state to state. -/

/-- A relation of the events between two states, which may be put one after the other. -/
structure Traced (m : Machine α E P) (R : P → List E → P → Prop) : Prop where
  nil : R p [] p
  append : R p es q → R q fs r → R p (es ++ fs) r
  feed : R (m.feed p x) es q → R p es q
  step : m.step fin p = some (es, p', b) → R p es p'
  flush : R p (m.flush p).1 (m.flush p).2

variable {R : P → List E → P → Prop}

theorem Traced.drain (hm : Traced m R) (h : m.drain fin p = some (es, q)) : R p es q := by
  rw [Machine.drain] at h
  split at h
  · cases h
  · rename_i hs
    cases h
    exact hm.step hs
  · rename_i hs
    have hlt := m.descends hs
    obtain ⟨r, hr, heq⟩ := Option.map_eq_some_iff.mp h
    cases heq
    exact hm.append (hm.step hs) (hm.drain hr)
termination_by m.rank p

theorem Traced.push (hm : Traced m R) (h : m.push p chunk = some (es, q)) : R p es q := by
  unfold Machine.push at h
  split at h
  · cases h
    exact hm.nil
  · exact hm.feed (hm.drain h)

theorem Traced.finish (hm : Traced m R) (h : m.finish p = some (es, q)) : R p es q := by
  obtain ⟨r, hr, heq⟩ := Option.map_eq_some_iff.mp h
  cases heq
  exact hm.append (hm.drain hr) hm.flush

theorem Traced.stream (hm : Traced m R) (h : m.stream p cs = some es) : ∃ q, R p es q := by
  induction cs generalizing p es with
  | nil =>
    obtain ⟨r, hr, heq⟩ := Option.map_eq_some_iff.mp h
    cases heq
    exact ⟨r.2, hm.finish hr⟩
  | cons c cs ih =>
    obtain ⟨r, hr, hrest⟩ := Option.bind_eq_some_iff.mp h
    obtain ⟨fs, hfs, heq⟩ := Option.map_eq_some_iff.mp hrest
    cases heq
    obtain ⟨q, hq⟩ := ih hfs
    exact ⟨q, hm.append (hm.push hr) hq⟩

/-! Runs without a panic. -/

theorem drain_safe {I : P → Prop}
    (hstep : ∀ p, I p → ∃ es p' b, m.step fin p = some (es, p', b) ∧ I p') (p : P) (hp : I p) :
    ∃ es p', m.drain fin p = some (es, p') ∧ I p' := by
  obtain ⟨es, p', b, hs, hp'⟩ := hstep p hp
  cases b with
  | false => exact ⟨es, p', drain_stop hs, hp'⟩
  | true =>
    have hlt := m.descends hs
    obtain ⟨fs, q, hq, hI⟩ := drain_safe hstep p' hp'
    refine ⟨es ++ fs, q, ?_, hI⟩
    rw [drain_step hs, hq]
    rfl
termination_by m.rank p

/-- Chunks that keep an invariant which no step can panic under. -/
theorem stream_safe {I : P → Prop} (hfeed : ∀ p c, I p → c ∈ cs → I (m.feed p c))
    (hstep : ∀ fin p, I p → ∃ es p' b, m.step fin p = some (es, p', b) ∧ I p') (hp : I p) :
    ∃ es, m.stream p cs = some es := by
  induction cs generalizing p with
  | nil =>
    obtain ⟨es, p', hd, _⟩ := drain_safe (hstep true) p hp
    simp only [stream, finish, hd, Option.map_some]
    exact ⟨_, rfl⟩
  | cons c cs ih =>
    have hpush : ∃ es p', m.push p c = some (es, p') ∧ I p' := by
      unfold push
      split
      · exact ⟨[], p, rfl, hp⟩
      · exact drain_safe (hstep false) _ (hfeed p c hp List.mem_cons_self)
    obtain ⟨es, p', hpush, hp'⟩ := hpush
    obtain ⟨fs, hfs⟩ := ih (fun q d hq hd => hfeed q d hq (List.mem_cons_of_mem c hd)) hp'
    refine ⟨es ++ fs, ?_⟩
    rw [stream, hpush, Option.bind_some, hfs]
    rfl

end Machine
end Flambeau.Stream
