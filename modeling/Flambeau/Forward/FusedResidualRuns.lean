import Mathlib.Algebra.BigOperators.Group.Finset.Piecewise
import Mathlib.Data.Int.Basic
import Flambeau.Systems.Runs
import Flambeau.Forward.FusedResidualBlocks

namespace Flambeau.Forward.FusedResidual
open Systems Fallible
open Function (update)

section Runs

variable {R W E C ι : Type} [AddCommMonoid R] [Fintype ι] {S : Setup R W E} {D : Device R ι}
  {s₀ s : State R C ι} {input resid : Loc} {x delta : R} {cache : C} {log : List (ι → R)}
  {call : Call R W E C ι} {rest calls : List (Call R W E C ι)}

/-- Every rank logs the same rows. -/
def onEvery (ι : Type) (rows : List R) : List (ι → R) := rows.map fun x _ => x

variable (S D) in
/-- The rows that a forward logs, where a skipped projection sums what the buffer held. -/
def Traced : List (Call R W E C ι) → C → R → List R → Prop
  | [], _, _, rows => rows = []
  | call :: calls, cache, x, rows => ∃ k tail,
    Traced calls (plainCache S call cache x)
      (call.after.foldl (fun x f => f x) (x + madeDelta S D call cache x k)) tail ∧
    rows = plainRead S call x :: (x + madeDelta S D call cache x k) :: tail

variable (S) in
/-- A residual that no delta is left to add to. -/
structure Added (call : Call R W E C ι) (s₀ s : State R C ι) (resid : Loc) (x : R) (cache : C)
    (log : List (ι → R)) : Prop where
  rows : s.mem resid = fun _ => x
  place : resid = .edge ∨ resid = s.slot
  fused : s.fusedResidualAlreadyDone = false
  kept : s.cache = cache
  trace : s.trace = s₀.trace ++ log
  normed : s.inputPreNormed = true → S.n = 1 ∧ ∃ weight, call.next = some weight ∧
    s.mem .norm = fun _ => S.rmsnorm weight call.w.rmsEps x

omit [Fintype ι] in
/-- The caller's add, or the rows that the post-norm has left. -/
theorem addDelta_ends {result : Option Loc} (more : List (ι → R))
    (h : Made S call.next call.w.rmsEps s₀ s input x delta cache log result) :
    Ends (addDelta D input result) (fun resid s' => Added S call s₀ s' resid (x + delta) cache log)
      (fun s' => Failed D s₀ s' (log ++ more)) s := by
  obtain ⟨hkept, htrace, hout⟩ := h
  unfold addDelta
  cases result with
  | none =>
    obtain ⟨hrows, hplace, hfused, hnormed⟩ := hout
    exact ⟨hrows, hplace, hfused, hkept, htrace, hnormed⟩
  | some d =>
    obtain ⟨hpre, hcases⟩ := hout
    have hnot : ∀ P : Prop, s.inputPreNormed = true → P := fun P hyes => by
      rw [hpre] at hyes
      cases hyes
    dsimp only
    unfold residualAddLocal nextResidualSlot
    rw [ends_branch, ends_always, ends_bind, ends_always, ends_bind, ends_launch]
    rcases hcases with ⟨hfused, hd, hmem⟩ | ⟨hfused, hd, hplace, hrows, hmem⟩
    · exact ⟨fun _ => ⟨hmem, .inr hd, rfl, hkept, htrace, hnot _⟩, fun hno => by
        rw [hfused] at hno
        cases hno⟩
    · refine ⟨fun hyes => ?_, fun _ => ?_⟩
      · rw [hfused] at hyes
        cases hyes
      constructor
      · intro hfault
        refine ⟨⟨_, hfault⟩, hpre, hfused, ?_⟩
        change s.trace <+: _
        rw [htrace]
        exact ⟨more, List.append_assoc ..⟩
      · intro _
        rw [ends_pure]
        refine ⟨?_, .inr ?_, hfused, hkept, htrace, hnot _⟩
        · unfold State.store State.tick
          dsimp only
          rw [Function.update_self, hrows, hd, hmem]
        · unfold State.slot State.store State.tick
          dsimp only
          cases s.currentResidualIsA <;> rfl

omit [AddCommMonoid R] [Fintype ι] in
/-- In-place work, with nothing normed ahead. -/
theorem rework_ends (more : List (ι → R)) (fs : List (R → R))
    (h : Mid s₀ s resid x cache log) :
    Ends (rework D resid fs)
      (fun _ s' => Mid s₀ s' resid (fs.foldl (fun x f => f x) x) cache log)
      (fun s' => Failed D s₀ s' (log ++ more)) s := by
  induction fs generalizing s x with
  | nil => exact h
  | cons f fs ih =>
    unfold rework
    rw [ends_bind, ends_launch]
    refine ⟨h.failed more, fun _ => ih ⟨?_, h.place, h.preNormed, h.fused, h.kept, h.trace⟩⟩
    change update s.mem resid (fun r => f (s.mem resid r)) resid = _
    rw [Function.update_self, h.rows]

omit [AddCommMonoid R] [Fintype ι] in
theorem Added.unmarked (h : Added S call s₀ s resid x cache log) (hnext : call.next = none) :
    s.inputPreNormed = false := by
  cases hpre : s.inputPreNormed with
  | false => rfl
  | true =>
    obtain ⟨-, weight, hweight, -⟩ := h.normed hpre
    rw [hnext] at hweight
    cases hweight

omit [AddCommMonoid R] [Fintype ι] in
/-- A folded norm is the one that the next call names as its own. -/
theorem Added.ready (hlinked : Linked (call :: rest)) (h : Added S call s₀ s resid x cache log)
    (s' : State R C ι) (hs : s' = { s with trace := s'.trace }) : Ready S rest s' resid x cache := by
  rw [hs]
  refine ⟨h.rows, h.place, h.fused, h.kept, fun hpre => ?_⟩
  obtain ⟨hn, weight, hweight, hnorm⟩ := h.normed hpre
  obtain ⟨-, d, ds, hrest, hd, heps⟩ := hlinked.1 weight hweight
  refine ⟨hn, d, ds, hrest, ?_⟩
  change s.mem .norm = fun _ => S.rmsnorm d.w.norm d.w.rmsEps x
  rw [hnorm, hd, heps]

theorem runCall_ends (hlinked : Linked (call :: rest)) (h : Ready S (call :: rest) s input x cache)
    (more : List (ι → R)) :
    Ends (runCall S D call input)
      (fun resid s' => ∃ k, Ready S rest s' resid
        (call.after.foldl (fun x f => f x) (x + madeDelta S D call cache x k))
        (plainCache S call cache x) ∧
        s'.trace = s.trace ++ onEvery ι [plainRead S call x, x + madeDelta S D call cache x k])
      (fun s' => ∃ k, Failed D s s'
        (onEvery ι [plainRead S call x, x + madeDelta S D call cache x k] ++ more)) s := by
  unfold runCall
  rw [ends_bind]
  refine Ends.mono (composite_ends h) ?_ fun s₁ hfailed => ⟨0, ?_⟩
  · rintro result s₁ ⟨k, hmade⟩
    rw [ends_bind]
    refine Ends.mono (addDelta_ends (D := D) ((fun _ => x + madeDelta S D call cache x k) :: more) hmade)
      (fun resid s₂ h₂ => ?_) fun s₂ hfailed => ⟨k, hfailed⟩
    rw [ends_bind, ends_always]
    have htrace : s₂.trace ++ [s₂.mem resid] =
        s.trace ++ onEvery ι [plainRead S call x, x + madeDelta S D call cache x k] := by
      rw [h₂.trace, h₂.rows, List.append_assoc]
      rfl
    cases hnext : call.next with
    | none =>
      rw [ends_bind]
      have hmid : Mid s { s₂ with trace := s₂.trace ++ [s₂.mem resid] } resid
          (x + madeDelta S D call cache x k) (plainCache S call cache x)
          (onEvery ι [plainRead S call x, x + madeDelta S D call cache x k]) :=
        ⟨h₂.rows, h₂.place, h₂.unmarked hnext, h₂.fused, h₂.kept, htrace⟩
      refine Ends.mono (rework_ends (D := D) more call.after hmid) (fun _ s₃ h₃ => ?_)
        fun s₃ hfailed => ⟨k, hfailed⟩
      rw [ends_pure]
      refine ⟨k, ⟨h₃.rows, h₃.place, h₃.fused, h₃.kept, fun hpre => ?_⟩, h₃.trace⟩
      exact absurd (h₃.preNormed.symm.trans hpre) Bool.false_ne_true
    | some weight =>
      rw [(hlinked.1 weight hnext).1]
      exact ⟨k, h₂.ready hlinked _ rfl, htrace⟩
  · exact ⟨hfailed.faulted, hfailed.preNormed, hfailed.fused,
      hfailed.trace.trans ⟨(fun _ => x + madeDelta S D call cache x 0) :: more, List.append_assoc ..⟩⟩

theorem Traced.total (calls : List (Call R W E C ι)) (cache : C) (x : R) :
    ∃ rows, Traced S D calls cache x rows := by
  induction calls generalizing cache x with
  | nil => exact ⟨[], rfl⟩
  | cons call calls ih =>
    obtain ⟨tail, htail⟩ := ih (plainCache S call cache x)
      (call.after.foldl (fun x f => f x) (x + madeDelta S D call cache x 0))
    exact ⟨_, 0, tail, htail, rfl⟩

/-- Through all calls: the rows are traced, and after a fault no flag is left up. -/
theorem runCalls_ends (hlinked : Linked calls) (h : Ready S calls s resid x cache) :
    Ends (runCalls S D calls resid)
      (fun _ s' => s'.inputPreNormed = false ∧ s'.fusedResidualAlreadyDone = false ∧
        ∃ rows, Traced S D calls cache x rows ∧ s'.trace = s.trace ++ onEvery ι rows)
      (fun s' => ∃ rows, Traced S D calls cache x rows ∧ Failed D s s' (onEvery ι rows)) s := by
  induction calls generalizing s resid x cache with
  | nil =>
    refine ⟨?_, h.fused, [], rfl, (List.append_nil _).symm⟩
    cases hpre : s.inputPreNormed with
    | false => rfl
    | true =>
      obtain ⟨-, call, rest, heq, -⟩ := h.normed hpre
      cases heq
  | cons call calls ih =>
    unfold runCalls
    rw [ends_bind]
    refine Ends.mono (runCall_ends hlinked h []) ?_ ?_
    · rintro resid₁ s₁ ⟨k, hready, htrace⟩
      refine Ends.mono (ih hlinked.2 hready) ?_ ?_
      · rintro _ s₂ ⟨hpre, hfused, rows, hrows, htrace₂⟩
        refine ⟨hpre, hfused, _, ⟨k, rows, hrows, rfl⟩, ?_⟩
        rw [htrace₂, htrace, List.append_assoc]
        rfl
      · rintro s₂ ⟨rows, hrows, hfailed⟩
        refine ⟨_, ⟨k, rows, hrows, rfl⟩, hfailed.faulted, hfailed.preNormed, hfailed.fused, ?_⟩
        refine hfailed.trace.trans ?_
        rw [htrace, List.append_assoc]
        exact List.prefix_rfl
    · rintro s₁ ⟨k, hfailed⟩
      obtain ⟨tail, htail⟩ := @Traced.total R W E C ι _ _ S D calls (plainCache S call cache x)
        (call.after.foldl (fun x f => f x) (x + madeDelta S D call cache x k))
      refine ⟨_, ⟨k, tail, htail, rfl⟩, hfailed.faulted, hfailed.preNormed, hfailed.fused, ?_⟩
      refine hfailed.trace.trans ⟨onEvery ι tail, ?_⟩
      rw [List.append_nil, List.append_assoc]
      rfl

theorem forward_ends (hlinked : Linked calls) (isFirst : Bool) (start : R)
    (hpre : s.inputPreNormed = false) (hfused : s.fusedResidualAlreadyDone = false) :
    Ends (forward S D calls isFirst start)
      (fun _ s' => s'.inputPreNormed = false ∧ s'.fusedResidualAlreadyDone = false ∧
        ∃ rows, Traced S D calls s.cache start rows ∧ s'.trace = s.trace ++ onEvery ι rows)
      (fun s' => ∃ rows, Traced S D calls s.cache start rows ∧ Failed D s s' (onEvery ι rows)) s := by
  obtain ⟨rows, hrows⟩ := @Traced.total R W E C ι _ _ S D calls s.cache start
  have hcalls : ∀ s₁ : State R C ι, ∀ resid, Ready S calls s₁ resid start s.cache →
      s₁.trace = s.trace → Ends (do let _ ← runCalls S D calls resid; launch D id : Act R C ι Unit)
        (fun _ s' => s'.inputPreNormed = false ∧ s'.fusedResidualAlreadyDone = false ∧
          ∃ rows, Traced S D calls s.cache start rows ∧ s'.trace = s.trace ++ onEvery ι rows)
        (fun s' => ∃ rows, Traced S D calls s.cache start rows ∧ Failed D s s' (onEvery ι rows)) s₁ := by
    intro s₁ resid hready htrace
    rw [ends_bind]
    refine Ends.mono (runCalls_ends hlinked hready) ?_ ?_
    · rintro _ s₂ ⟨hpre₂, hfused₂, rows₂, hrows₂, htrace₂⟩
      rw [htrace] at htrace₂
      rw [ends_launch]
      refine ⟨fun hfault => ⟨rows₂, hrows₂, ⟨_, hfault⟩, hpre₂, hfused₂, ?_⟩,
        fun _ => ⟨hpre₂, hfused₂, rows₂, hrows₂, htrace₂⟩⟩
      change s₂.trace <+: _
      rw [htrace₂]
    · rintro s₂ ⟨rows₂, hrows₂, hfailed⟩
      exact ⟨rows₂, hrows₂, hfailed.faulted, hfailed.preNormed, hfailed.fused, htrace ▸ hfailed.trace⟩
  have hnot : ∀ P : Prop, s.inputPreNormed = true → P := fun P hyes => by
    rw [hpre] at hyes
    cases hyes
  have hfault : ∀ s₁ : State R C ι, s₁.inputPreNormed = false → s₁.fusedResidualAlreadyDone = false →
      s₁.trace = s.trace → ∀ k, D.fault k = true → Failed D s s₁ (onEvery ι rows) :=
    fun s₁ hpre₁ hfused₁ htrace₁ k hk => ⟨⟨k, hk⟩, hpre₁, hfused₁, ⟨onEvery ι rows, by rw [htrace₁]⟩⟩
  unfold forward embed
  rw [ends_bind]
  split
  · unfold nextResidualSlot
    rw [ends_bind, ends_always, ends_bind, ends_launch]
    refine ⟨fun hk => ⟨rows, hrows, hfault _ hpre hfused rfl _ hk⟩, fun _ => ?_⟩
    rw [ends_pure]
    refine hcalls _ _ ⟨?_, .inr ?_, hfused, rfl, hnot _⟩ rfl
    · unfold State.store State.tick
      dsimp only
      rw [Function.update_self]
    · unfold State.slot State.store State.tick
      dsimp only
      cases s.currentResidualIsA <;> rfl
  · rw [ends_bind, ends_launch]
    refine ⟨fun hk => ⟨rows, hrows, hfault _ hpre hfused rfl _ hk⟩, fun _ => ?_⟩
    rw [ends_pure]
    refine hcalls _ _ ⟨?_, .inl rfl, hfused, rfl, hnot _⟩ rfl
    unfold State.store State.tick
    dsimp only
    rw [Function.update_self]

theorem Traced.plain {rows : List R} (hno : ∀ call ∈ calls, trips S call = false)
    (h : Traced S D calls cache x rows) : rows = plainTrace S calls cache x := by
  induction calls generalizing cache x rows with
  | nil => exact h
  | cons call calls ih =>
    obtain ⟨k, tail, htail, hrows⟩ := h
    have hmade : madeDelta S D call cache x k = plainDelta S call cache x := by
      unfold madeDelta
      rw [hno call List.mem_cons_self, if_neg Bool.false_ne_true]
    rw [hmade] at htail hrows
    rw [hrows, ih (fun d hd => hno d (List.mem_cons_of_mem _ hd)) htail]
    rfl

end Runs

section Pools

variable {R W E C ι : Type}

/-- Neither flag is up. -/
def State.Clear (s : State R C ι) : Prop :=
  s.inputPreNormed = false ∧ s.fusedResidualAlreadyDone = false

/-- A forward that a pool is given. -/
structure Pass (R W E C ι : Type) where
  setup : Setup R W E
  device : Device R ι
  calls : List (Call R W E C ι)
  isFirst : Bool
  rows : R

variable [AddCommMonoid R] [Fintype ι]

/-- The pool after a forward, whether it returned `Ok` or `Err`. -/
def Pass.run (p : Pass R W E C ι) (s : State R C ι) : State R C ι :=
  (forward p.setup p.device p.calls p.isFirst p.rows { s with trace := [] }).2

/-- A pool from its allocation on. -/
def poolRuns (R W E C ι : Type) [AddCommMonoid R] [Fintype ι] :
    System (State R C ι) (Pass R W E C ι) where
  init s := s.Clear
  step s p := some (p.run s)

theorem Pass.run_clear {p : Pass R W E C ι} {s : State R C ι} (hlinked : Linked p.calls)
    (h : s.Clear) : (p.run s).Clear := by
  have hends := @forward_ends R W E C ι _ _ p.setup p.device { s with trace := [] } p.calls hlinked
    p.isFirst p.rows h.1 h.2
  unfold Ends at hends
  unfold Pass.run
  cases hforward : forward p.setup p.device p.calls p.isFirst p.rows { s with trace := [] } with
  | mk result s' =>
    rw [hforward] at hends
    cases result with
    | none =>
      obtain ⟨_, -, hfailed⟩ := hends
      exact ⟨hfailed.preNormed, hfailed.fused⟩
    | some _ => exact ⟨hends.1, hends.2.1⟩

/-- No flag outlives the forward that raised it. -/
theorem starts_clear {s : State R C ι}
    (h : (poolRuns R W E C ι).Run (fun _ p => Linked p.calls) s) : s.Clear :=
  h.invariant (fun _ hinit => hinit) fun _ _ _ hclear hlinked hstep => by
    cases hstep
    exact Pass.run_clear hlinked hclear

/-- A forward that logs what the unfused one does, up to where it fails. -/
def PlainForward (S : Setup R W E) (D : Device R ι) (calls : List (Call R W E C ι)) (isFirst : Bool)
    (rows : R) (s : State R C ι) : Prop :=
  Ends (forward S D calls isFirst rows)
    (fun _ s' => s'.trace = onEvery ι (plainTrace S calls s.cache rows))
    (fun s' => s'.trace <+: onEvery ι (plainTrace S calls s.cache rows)) { s with trace := [] }

variable {S : Setup R W E} {D : Device R ι} {calls : List (Call R W E C ι)} {isFirst : Bool} {rows : R}
  {s : State R C ι}

theorem plainForward_of_clear (hlinked : Linked calls) (hno : ∀ call ∈ calls, trips S call = false)
    (h : s.Clear) : PlainForward S D calls isFirst rows s := by
  refine Ends.mono (forward_ends hlinked isFirst rows h.1 h.2) ?_ ?_
  · rintro _ s' ⟨-, -, log, hlog, htrace⟩
    rw [htrace, hlog.plain hno]
    exact List.nil_append _
  · rintro s' ⟨log, hlog, hfailed⟩
    rw [← hlog.plain hno]
    exact hfailed.trace

end Pools

section Slip

variable {R W E C ι : Type} [AddCommGroup R] [Fintype ι] {S : Setup R W E}
  {calls : List (Call R W E C ι)}

/-- A device that never fails, and what it leaves in the projection's buffer. -/
def leaving (stale : ι → R) : Device R ι where
  fault _ := false
  scratch _ := stale

theorem exists_sum_ne [Nontrivial R] [Nonempty ι] (y : R) : ∃ stale : ι → R, ∑ r, stale r ≠ y := by
  classical
  obtain ⟨t, ht⟩ := exists_ne y
  obtain ⟨r₀⟩ := ‹Nonempty ι›
  refine ⟨fun r => if r = r₀ then t else 0, ?_⟩
  rw [Finset.sum_ite_eq' Finset.univ r₀, if_pos (Finset.mem_univ r₀)]
  exact ht

/-- Some rows in the buffer give the slip away. -/
theorem exists_stale [Nontrivial R] [Nonempty ι] (htrip : ∃ call ∈ calls, trips S call = true)
    (cache : C) (x : R) : ∃ stale : ι → R, ∀ rows, Traced S (leaving stale) calls cache x rows →
      rows ≠ plainTrace S calls cache x := by
  induction calls generalizing cache x with
  | nil =>
    obtain ⟨_, hmem, -⟩ := htrip
    cases hmem
  | cons call calls ih =>
    cases hcall : trips S call with
    | true =>
      obtain ⟨stale, hstale⟩ := exists_sum_ne (ι := ι) (plainDelta S call cache x)
      refine ⟨stale, ?_⟩
      rintro rows ⟨k, tail, -, hrows⟩ heq
      rw [hrows] at heq
      have hrow : x + madeDelta S (leaving stale) call cache x k = x + plainDelta S call cache x :=
        (List.cons.inj (List.cons.inj heq).2).1
      unfold madeDelta at hrow
      rw [hcall, if_pos rfl] at hrow
      exact hstale (add_left_cancel hrow)
    | false =>
      have hrest : ∃ d ∈ calls, trips S d = true := by
        obtain ⟨d, hd, htrips⟩ := htrip
        rcases List.mem_cons.mp hd with rfl | hd
        · rw [hcall] at htrips
          cases htrips
        · exact ⟨d, hd, htrips⟩
      obtain ⟨stale, hstale⟩ := ih hrest (plainCache S call cache x)
        (call.after.foldl (fun x f => f x) (x + plainDelta S call cache x))
      refine ⟨stale, ?_⟩
      rintro rows ⟨k, tail, htail, hrows⟩ heq
      have hmade : madeDelta S (leaving stale) call cache x k = plainDelta S call cache x := by
        unfold madeDelta
        rw [hcall, if_neg Bool.false_ne_true]
      rw [hmade] at htail
      rw [hrows] at heq
      exact hstale tail htail (List.cons.inj (List.cons.inj heq).2).2

theorem fused_residual_plain [Nontrivial R] [Nonempty ι] [Nonempty C] (hlinked : Linked calls) :
    (∀ s, (poolRuns R W E C ι).Run (fun _ p => Linked p.calls) s →
      s.Clear ∧ ∀ D isFirst rows, PlainForward S D calls isFirst rows s) ↔
      ∀ call ∈ calls, trips S call = false := by
  constructor
  · intro h
    by_contra hsome
    have htrip : ∃ call ∈ calls, trips S call = true := by
      simpa only [not_forall, Bool.not_eq_false, exists_prop] using hsome
    obtain ⟨cache⟩ := ‹Nonempty C›
    obtain ⟨stale, hstale⟩ := exists_stale (ι := ι) htrip cache 0
    obtain ⟨r₀⟩ := ‹Nonempty ι›
    let pool : State R C ι :=
      { inputPreNormed := false, fusedResidualAlreadyDone := false, currentResidualIsA := true
        mem := fun _ _ => 0, cache := cache, launches := 0, trace := [] }
    have hplain := (h pool (.init ⟨rfl, rfl⟩)).2 (leaving stale) true 0
    have hends := forward_ends (S := S) (D := leaving stale) (s := pool) hlinked true 0 rfl rfl
    refine not_ends_false (Ends.mono (hplain.and hends) ?_ ?_)
    · rintro _ s' ⟨htrace, -, -, log, hlog, htrace'⟩
      have hmaps : onEvery ι log = onEvery ι (plainTrace S calls cache 0) := htrace'.symm.trans htrace
      exact hstale log hlog
        (List.map_injective_iff.mpr (fun a b hab => congrFun hab r₀) hmaps)
    · rintro s' ⟨-, _, -, hfailed⟩
      obtain ⟨_, hfault⟩ := hfailed.faulted
      cases hfault
  · intro hno s hs
    exact ⟨starts_clear hs, fun D isFirst rows => plainForward_of_clear hlinked hno (starts_clear hs)⟩

end Slip

/-- A one-rank stack of one layer, each rank's share being its normed rows. -/
def echo (decodesToF16 : Bool) : Weights Int Unit Unit Unit Unit where
  norm := ()
  postNorm := none
  rmsEps := ()
  decodesToF16 := decodesToF16
  kernel := { share := fun _ _ x => x, advance := fun _ _ => () }

def echoLayer : Layer Int Unit Unit Unit Unit where
  mixer := .standardAttn
  attn := echo true
  ffn := .denseFfn
  ffnWeights := echo true
  after := []

def echoSetup (supportsArResidual : Bool) : Setup Int Unit Unit where
  rmsnorm := fun _ _ x => x
  supportsArResidual := supportsArResidual
  supportsArResidualRmsnorm := true
  n := 1

def freshPool : State Int Unit Unit where
  inputPreNormed := false
  fusedResidualAlreadyDone := false
  currentResidualIsA := true
  mem := fun _ _ => 0
  cache := ()
  launches := 0
  trace := []

theorem fused_residual_plain_folded : Linked (qwen35Calls [echoLayer]) ∧
    ∀ s, (poolRuns Int Unit Unit Unit Unit).Run (fun _ p => Linked p.calls) s →
      s.Clear ∧ ∀ D isFirst rows, PlainForward (echoSetup true) D (qwen35Calls [echoLayer]) isFirst rows s :=
  have hlinked : Linked (qwen35Calls [echoLayer]) := qwen35_linked ⟨(), fun _ _ => ⟨rfl, rfl⟩⟩
  ⟨hlinked, (fused_residual_plain hlinked).mpr (by decide)⟩

/-- Hooks that fold the next norm but not a bare residual: the FFN's projection is skipped
for a hook that is not called. -/
theorem skipped_projection : Linked (qwen35Calls [echoLayer]) ∧ freshPool.Clear ∧
    ¬ PlainForward (echoSetup false) (leaving fun _ => 5) (qwen35Calls [echoLayer]) true 1 freshPool := by
  refine ⟨qwen35_linked ⟨(), fun _ _ => ⟨rfl, rfl⟩⟩, ⟨rfl, rfl⟩, fun h => ?_⟩
  have hrows : [fun _ : Unit => (1 : Int), fun _ => 2, fun _ => 2, fun _ => 7] =
      [fun _ => 1, fun _ => 2, fun _ => 2, fun _ => 4] := h
  have hlast := congrFun (List.cons.inj (List.cons.inj (List.cons.inj (List.cons.inj hrows).2).2).2).1 ()
  cases hlast

end Flambeau.Forward.FusedResidual
