import Flambeau.Stream.Machine

namespace Flambeau.Stream.Machine

/-- The states in which a drain takes a step. -/
inductive Draining (m : Machine α E P) (fin : Bool) : P → P → Prop where
  | here : Draining m fin p p
  | later : m.step fin p = some (es, p', true) → Draining m fin p' r → Draining m fin p r

/-- Every state in which a stream takes a step satisfies `G`, and the one that is flushed
satisfies `F`. -/
def Throughout (m : Machine α E P) (G F : P → Prop) (p : P) : List (List α) → Prop
  | [] => (∀ r, Draining m true p r → G r) ∧ ∀ es q, m.drain true p = some (es, q) → F q
  | c :: cs =>
    (c ≠ [] → ∀ r, Draining m false (m.feed p c) r → G r) ∧
      ∀ es q, m.push p c = some (es, q) → Throughout m G F q cs

/-- Events that are read from one phase to another, one after the other. -/
structure Reads (A : Φ → List E → Φ → Prop) : Prop where
  nil : A a [] a
  append : A a es b → A b fs c → A a (es ++ fs) c
  split : A a (es ++ fs) c → ∃ b, A a es b ∧ A b fs c
  unique : A a es b → A a es c → b = c

/-- The steps of a machine in states of `G` give out what is read, and no others do. -/
structure Judged (m : Machine α E P) (A : Φ → List E → Φ → Prop) (phase : P → Φ) (I G F : P → Prop)
    (Final : Φ → Prop) : Prop where
  reads : Reads A
  feed_phase : ∀ p x, phase (m.feed p x) = phase p
  feed : I p → I (m.feed p x)
  good : I p → G p → m.step fin p = some (es, p', b) → A (phase p) es (phase p') ∧ I p'
  bad : I p → ¬ G p → m.step fin p = some (es, p', b) → ¬ A (phase p) es c
  ended : I p → F p → ∃ c, Final c ∧ A (phase p) (m.flush p).1 c
  cut : I p → ¬ F p → Final c → ¬ A (phase p) (m.flush p).1 c

variable {m : Machine α E P} {A : Φ → List E → Φ → Prop} {phase : P → Φ} {I G F : P → Prop} {Final : Φ → Prop}

theorem draining_step (h : m.step fin p = some (es, p', true)) :
    (∀ r, Draining m fin p r → G r) ↔ G p ∧ ∀ r, Draining m fin p' r → G r := by
  constructor
  · intro hall
    exact ⟨hall p .here, fun r hr => hall r (.later h hr)⟩
  · rintro ⟨hp, hall⟩ r hr
    cases hr with
    | here => exact hp
    | later hstep hr =>
      rw [h] at hstep
      cases hstep
      exact hall r hr

theorem draining_stop (h : m.step fin p = some (es, p', false)) :
    (∀ r, Draining m fin p r → G r) ↔ G p := by
  constructor
  · intro hall
    exact hall p .here
  · intro hp r hr
    cases hr with
    | here => exact hp
    | later hstep _ =>
      rw [h] at hstep
      cases hstep

theorem Judged.drain (hm : Judged m A phase I G F Final) (hp : I p) (h : m.drain fin p = some (es, q)) :
    ((∀ r, Draining m fin p r → G r) → A (phase p) es (phase q) ∧ I q) ∧
      (¬ (∀ r, Draining m fin p r → G r) → ∀ c, ¬ A (phase p) es c) := by
  rw [Machine.drain] at h
  split at h
  · cases h
  · rename_i hs
    cases h
    rw [draining_stop hs]
    exact ⟨fun hgood => hm.good hp hgood hs, fun hbad c => hm.bad hp hbad hs⟩
  · rename_i p' hs
    have hlt := m.descends hs
    obtain ⟨⟨fs, q'⟩, hr, heq⟩ := Option.map_eq_some_iff.mp h
    cases heq
    rw [draining_step hs]
    constructor
    · rintro ⟨hgood, hrest⟩
      obtain ⟨hread, hp'⟩ := hm.good hp hgood hs
      obtain ⟨hreads, hq⟩ := (hm.drain hp' hr).1 hrest
      exact ⟨hm.reads.append hread hreads, hq⟩
    · intro hbad c hc
      obtain ⟨b, hfirst, hlast⟩ := hm.reads.split hc
      by_cases hgood : G p
      · obtain ⟨hread, hp'⟩ := hm.good hp hgood hs
        cases hm.reads.unique hfirst hread
        exact (hm.drain hp' hr).2 (fun hrest => hbad ⟨hgood, hrest⟩) c hlast
      · exact hm.bad hp hgood hs hfirst
termination_by m.rank p

theorem Judged.push (hm : Judged m A phase I G F Final) (hp : I p) (h : m.push p x = some (es, q)) :
    ((x ≠ [] → ∀ r, Draining m false (m.feed p x) r → G r) → A (phase p) es (phase q) ∧ I q) ∧
      (¬ (x ≠ [] → ∀ r, Draining m false (m.feed p x) r → G r) → ∀ c, ¬ A (phase p) es c) := by
  unfold Machine.push at h
  split at h
  · rename_i hempty
    cases h
    refine ⟨fun _ => ⟨hm.reads.nil, hp⟩, fun hbad => absurd (fun hx => ?_) hbad⟩
    exact absurd (List.isEmpty_iff.mp hempty) hx
  · rename_i hne
    have hx : x ≠ [] := fun hnil => hne (List.isEmpty_iff.mpr hnil)
    have hdrained := hm.drain (hm.feed hp) h
    rw [hm.feed_phase] at hdrained
    exact ⟨fun hgood => hdrained.1 (hgood hx), fun hbad => hdrained.2 fun hgood => hbad fun _ => hgood⟩

/-- A stream is read to an end just when no step and no flush of it goes wrong. -/
theorem Judged.stream (hm : Judged m A phase I G F Final) (hp : I p) (h : m.stream p cs = some es) :
    (∃ c, Final c ∧ A (phase p) es c) ↔ Throughout m G F p cs := by
  induction cs generalizing p es with
  | nil =>
    obtain ⟨r, hr, rfl⟩ := Option.map_eq_some_iff.mp h
    obtain ⟨⟨fs, q⟩, hd, rfl⟩ := Option.map_eq_some_iff.mp hr
    obtain ⟨hgood, hbad⟩ := hm.drain hp hd
    dsimp only
    constructor
    · rintro ⟨c, hc, hread⟩
      obtain ⟨b, hfirst, hlast⟩ := hm.reads.split hread
      have hall : ∀ r, Draining m true p r → G r := Classical.byContradiction fun h => hbad h b hfirst
      obtain ⟨hdrained, hq⟩ := hgood hall
      refine ⟨hall, fun es' q' hd' => ?_⟩
      rw [hd] at hd'
      cases hd'
      cases hm.reads.unique hfirst hdrained
      exact Classical.byContradiction fun hopen => hm.cut hq hopen hc hlast
    · rintro ⟨hall, hend⟩
      obtain ⟨hdrained, hq⟩ := hgood hall
      obtain ⟨c, hc, hflush⟩ := hm.ended hq (hend _ _ hd)
      exact ⟨c, hc, hm.reads.append hdrained hflush⟩
  | cons c cs ih =>
    obtain ⟨⟨fs, q⟩, hr, hrest⟩ := Option.bind_eq_some_iff.mp h
    obtain ⟨gs, hgs, rfl⟩ := Option.map_eq_some_iff.mp hrest
    obtain ⟨hgood, hbad⟩ := hm.push hp hr
    constructor
    · rintro ⟨d, hd, hread⟩
      obtain ⟨b, hfirst, hlast⟩ := hm.reads.split hread
      have hall : c ≠ [] → ∀ r, Draining m false (m.feed p c) r → G r :=
        Classical.byContradiction fun h => hbad h b hfirst
      obtain ⟨hpushed, hq⟩ := hgood hall
      refine ⟨hall, fun es' q' hr' => ?_⟩
      rw [hr] at hr'
      cases hr'
      cases hm.reads.unique hfirst hpushed
      exact (ih hq hgs).mp ⟨d, hd, hlast⟩
    · rintro ⟨hall, hlater⟩
      obtain ⟨hpushed, hq⟩ := hgood hall
      obtain ⟨d, hd, hlast⟩ := (ih hq hgs).mpr (hlater _ _ hr)
      exact ⟨d, hd, hm.reads.append hpushed hlast⟩

end Flambeau.Stream.Machine
