import Mathlib
import Flambeau.Systems.Census
import Flambeau.Systems.Runs

namespace Flambeau.Server.Admission
open Systems

/-- `AdmissionGuard`: counted where its `state` is there. -/
structure AdmissionGuard where
  counted : Bool
deriving DecidableEq

/-- Where a request thread is: outside `try_admit`, behind its `fetch_add` with
what that returned, or before the rollback of the bump. -/
inductive Pc where
  | outside
  | counted (prev : Nat)
  | refused
deriving DecidableEq

structure Config where
  /-- `inflight_pool.len()`. -/
  inflightPool : Nat
  maxQueueDepth : Nat

/-- A `usize` sum. -/
def Config.cap (cfg : Config) : Nat := (cfg.inflightPool + cfg.maxQueueDepth) % 2 ^ 64

/-- The live guards are those handed out and not dropped, whoever holds them. -/
structure State (T : Type) where
  inFlight : Nat
  guards : List AdmissionGuard
  pc : T → Pc

inductive Act (T : Type) where
  | enter (t : T)
  | compare (t : T)
  | undo (t : T)
  | drop (k : Nat)
deriving DecidableEq

/-- `fetch_sub(1)` wraps below zero. -/
def fetchSub (n : Nat) : Nat := if n = 0 then 2 ^ 64 - 1 else n - 1

variable {T : Type} [DecidableEq T]

/-- The atomic steps of `try_admit` and of the guard's `drop`. What is counted is
in memory, so the bump itself never reaches the end of the word. -/
def step (cfg : Config) (s : State T) : Act T → Option (State T)
  | .enter t =>
    match s.pc t with
    | .outside =>
      if cfg.maxQueueDepth = 0 then some { s with guards := ⟨false⟩ :: s.guards }
      else some { s with inFlight := s.inFlight + 1, pc := set s.pc t (.counted s.inFlight) }
    | _ => none
  | .compare t =>
    match s.pc t with
    | .counted prev =>
      if cfg.cap ≤ prev then some { s with pc := set s.pc t .refused }
      else some { s with guards := ⟨true⟩ :: s.guards, pc := set s.pc t .outside }
    | _ => none
  | .undo t =>
    match s.pc t with
    | .refused => some { s with inFlight := fetchSub s.inFlight, pc := set s.pc t .outside }
    | _ => none
  | .drop k =>
    match s.guards[k]? with
    | some g =>
      some { s with
        inFlight := if g.counted then fetchSub s.inFlight else s.inFlight
        guards := s.guards.eraseIdx k }
    | none => none

def system (cfg : Config) : System (State T) (Act T) where
  init s := s.inFlight = 0 ∧ s.guards = [] ∧ ∀ t, s.pc t = .outside
  step := step cfg

/-- The bump was below the cap: a guard follows. -/
def admits (cap : Nat) : Pc → Bool
  | .counted prev => prev < cap
  | _ => false

/-- The bump was at the cap or above: it is undone. -/
def undoes (cap : Nat) : Pc → Bool
  | .counted prev => cap ≤ prev
  | .refused => true
  | .outside => false

/-- The counter is the live guards, the threads about to have one and the threads
about to undo their bump; the first two stay within the cap. -/
structure Inv (cfg : Config) (s : State T) (a u : Nat) : Prop where
  admitted : Census (admits cfg.cap) s.pc a
  undone : Census (undoes cfg.cap) s.pc u
  count : s.inFlight = s.guards.length + a + u
  within : s.guards.length + a ≤ cfg.cap
  counted : ∀ g ∈ s.guards, g.counted = true

variable {cfg : Config} {s s' : State T}

theorem Inv.positive (h : Inv cfg s a u) (hlive : s.guards ≠ [] ∨ ∃ t, s.pc t = .refused) :
    0 < s.inFlight := by
  rw [h.count]
  rcases hlive with hg | ⟨t, ht⟩
  · have hpos := List.length_pos_iff.mpr hg
    omega
  · obtain ⟨k, hk, -⟩ := h.undone.leave (t := t) (x := .outside) (by rw [ht]; rfl) rfl
    omega

theorem fetchSub_pos (h : 0 < n) : fetchSub n = n - 1 := by
  rw [fetchSub, if_neg (by omega)]

theorem enter_inv (h : Inv cfg s a u) (ht : s.pc t = .outside) :
    ∃ a' u', Inv cfg
      { s with inFlight := s.inFlight + 1, pc := set s.pc t (.counted s.inFlight) } a' u' := by
  have hcount := h.count
  have hwithin := h.within
  by_cases hcap : cfg.cap ≤ s.inFlight
  · refine ⟨a, u + 1, h.admitted.keep ?_, h.undone.enter (by rw [ht]; rfl) ?_, ?_, hwithin,
      h.counted⟩
    · rw [ht]
      simp [admits, hcap]
    · simp [undoes, hcap]
    · dsimp only
      omega
  · refine ⟨a + 1, u, h.admitted.enter (by rw [ht]; rfl) ?_, h.undone.keep ?_, ?_, ?_, h.counted⟩
    · simp only [admits, decide_eq_true_eq]
      omega
    · rw [ht]
      simp only [undoes, decide_eq_false_iff_not]
      exact hcap
    · dsimp only
      omega
    · dsimp only
      omega

theorem refuse_inv (h : Inv cfg s a u) (ht : s.pc t = .counted prev) (hcap : cfg.cap ≤ prev) :
    Inv cfg { s with pc := set s.pc t .refused } a u := by
  refine ⟨h.admitted.keep ?_, h.undone.keep ?_, h.count, h.within, h.counted⟩
  · rw [ht]
    simp [admits, hcap]
  · rw [ht]
    simp [undoes, hcap]

theorem admit_inv (h : Inv cfg s a u) (ht : s.pc t = .counted prev) (hcap : ¬cfg.cap ≤ prev) :
    ∃ a', Inv cfg { s with guards := ⟨true⟩ :: s.guards, pc := set s.pc t .outside } a' u := by
  have hcount := h.count
  have hwithin := h.within
  have hadmits : admits cfg.cap (s.pc t) = true := by
    rw [ht]
    simp only [admits, decide_eq_true_eq]
    omega
  obtain ⟨a', rfl, hleft⟩ := h.admitted.leave hadmits (x := .outside) rfl
  refine ⟨a', hleft, h.undone.keep ?_, ?_, ?_, ?_⟩
  · rw [ht]
    simp only [undoes, Bool.false_eq, decide_eq_false_iff_not]
    exact hcap
  · simp only [List.length_cons]
    omega
  · simp only [List.length_cons]
    omega
  · intro g hg
    rcases List.mem_cons.mp hg with rfl | hg
    · rfl
    · exact h.counted g hg

theorem undo_inv (h : Inv cfg s a u) (ht : s.pc t = .refused) :
    ∃ u', Inv cfg { s with inFlight := fetchSub s.inFlight, pc := set s.pc t .outside } a u' := by
  have hcount := h.count
  have hpos := h.positive (.inr ⟨t, ht⟩)
  obtain ⟨u', rfl, hleft⟩ := h.undone.leave (t := t) (x := .outside) (by rw [ht]; rfl) rfl
  refine ⟨u', h.admitted.keep (by rw [ht]; rfl), hleft, ?_, h.within, h.counted⟩
  dsimp only
  rw [fetchSub_pos hpos]
  omega

theorem drop_inv (h : Inv cfg s a u) (hk : s.guards[k]? = some g) :
    Inv cfg { s with
      inFlight := if g.counted then fetchSub s.inFlight else s.inFlight
      guards := s.guards.eraseIdx k } a u := by
  obtain ⟨hlt, rfl⟩ := List.getElem?_eq_some_iff.mp hk
  have hcount := h.count
  have hwithin := h.within
  have hlen := List.length_eraseIdx_of_lt hlt
  have hpos := h.positive (.inl (List.ne_nil_of_length_pos (by omega)))
  have hcounted := h.counted _ (List.getElem_mem hlt)
  refine ⟨h.admitted, h.undone, ?_, ?_, ?_⟩
  · dsimp only
    rw [if_pos hcounted, fetchSub_pos hpos, hlen]
    omega
  · dsimp only
    rw [hlen]
    omega
  · intro g hg
    exact h.counted g (List.mem_of_mem_eraseIdx hg)

theorem step_inv (hq : 0 < cfg.maxQueueDepth) (h : Inv cfg s a u)
    (hs : step cfg s act = some s') : ∃ a' u', Inv cfg s' a' u' := by
  cases act with
  | enter t =>
    cases hpc : s.pc t with
    | outside =>
      simp only [step, hpc, if_neg (show ¬cfg.maxQueueDepth = 0 by omega)] at hs
      cases hs
      exact enter_inv h hpc
    | counted prev => simp [step, hpc] at hs
    | refused => simp [step, hpc] at hs
  | compare t =>
    cases hpc : s.pc t with
    | outside => simp [step, hpc] at hs
    | counted prev =>
      by_cases hcap : cfg.cap ≤ prev
      · simp only [step, hpc, if_pos hcap] at hs
        cases hs
        exact ⟨a, u, refuse_inv h hpc hcap⟩
      · simp only [step, hpc, if_neg hcap] at hs
        cases hs
        obtain ⟨a', hinv⟩ := admit_inv h hpc hcap
        exact ⟨a', u, hinv⟩
    | refused => simp [step, hpc] at hs
  | undo t =>
    cases hpc : s.pc t with
    | outside => simp [step, hpc] at hs
    | counted prev => simp [step, hpc] at hs
    | refused =>
      simp only [step, hpc] at hs
      cases hs
      obtain ⟨u', hinv⟩ := undo_inv h hpc
      exact ⟨a, u', hinv⟩
  | drop k =>
    cases hk : s.guards[k]? with
    | none => simp [step, hk] at hs
    | some g =>
      simp only [step, hk] at hs
      cases hs
      exact ⟨a, u, drop_inv h hk⟩

theorem reachable_inv (hq : 0 < cfg.maxQueueDepth) (h : (system cfg).Reachable s) :
    ∃ a u, Inv cfg s a u := by
  apply h.invariant
  · rintro s ⟨hzero, hnone, hout⟩
    refine ⟨0, 0, .zero ?_, .zero ?_, ?_, ?_, ?_⟩
    · intro t
      rw [hout t]
      rfl
    · intro t
      rw [hout t]
      rfl
    · rw [hzero, hnone]
      rfl
    · simp [hnone]
    · simp [hnone]
  · rintro s act s' ⟨a, u, hinv⟩ - hs
    exact step_inv hq hinv hs

/-- The live guards stay within the cap, no decrement wraps, and with no thread
inside `try_admit` the counter is the number of live guards. -/
theorem admission_counts (hq : 0 < cfg.maxQueueDepth) (h : (system cfg).Reachable s) :
    s.guards.length ≤ cfg.cap ∧ s.guards.length ≤ cfg.inflightPool + cfg.maxQueueDepth ∧
    (s.guards ≠ [] ∨ (∃ t, s.pc t = .refused) → 0 < s.inFlight) ∧
    ((∀ t, s.pc t = .outside) → s.inFlight = s.guards.length) := by
  obtain ⟨a, u, hinv⟩ := reachable_inv hq h
  have hwithin := hinv.within
  have hcap : cfg.cap ≤ cfg.inflightPool + cfg.maxQueueDepth := Nat.mod_le _ _
  refine ⟨by omega, by omega, hinv.positive, ?_⟩
  intro hout
  have ha : a = 0 := by
    refine hinv.admitted.unique (.zero ?_)
    intro t
    rw [hout t]
    rfl
  have hu : u = 0 := by
    refine hinv.undone.unique (.zero ?_)
    intro t
    rw [hout t]
    rfl
  have hcount := hinv.count
  omega

/-- Two requests and room for one: one guard is out, and the refused bump is
undone. -/
theorem two_requests_counted :
    ∃ s : State Bool, (system ⟨0, 1⟩).Reachable s ∧ s.inFlight = 1 ∧
      s.guards.length ≤ Config.cap ⟨0, 1⟩ ∧ s.inFlight = s.guards.length := by
  have hstart : (system ⟨0, 1⟩).Reachable (⟨0, [], fun _ => .outside⟩ : State Bool) :=
    .init ⟨rfl, rfl, fun _ => rfl⟩
  obtain ⟨s, hs, hone, hout⟩ : ∃ s, (system ⟨0, 1⟩).runFrom
      (⟨0, [], fun _ => .outside⟩ : State Bool)
      [.enter true, .enter false, .compare false, .compare true, .undo false] = some s ∧
      s.inFlight = 1 ∧ ∀ t, s.pc t = .outside := ⟨_, rfl, rfl, by decide⟩
  have hreach := hstart.runFrom (System.meets_true _ _) hs
  obtain ⟨hcap, -, -, hcount⟩ := admission_counts (by decide) hreach
  exact ⟨s, hreach, hone, hcap, hcount hout⟩

end Flambeau.Server.Admission
