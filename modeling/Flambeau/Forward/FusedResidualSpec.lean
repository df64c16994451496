import Flambeau.Forward.FusedResidual

namespace Flambeau.Forward.FusedResidual
open Systems Fallible
open Function (update)

variable {R W E C ι : Type} [AddCommMonoid R] [Fintype ι] (S : Setup R W E) (D : Device R ι)

section Plain

variable (call : Call R W E C ι) (cache : C) (x : R)

/-- The block's own rmsnorm. -/
def plainNorm (w : Weights R W E C ι) (x : R) : R := S.rmsnorm w.norm w.rmsEps x

/-- What the block reads; the cascade takes its norms itself. -/
def plainRead : R :=
  match call.kind with
  | .moeCascade _ => x
  | _ => plainNorm S call.w x

/-- The all-reduced output of a block. -/
def shareSum (w : Weights R W E C ι) (cache : C) (normed : R) : R := ∑ r, w.kernel.share cache r normed

def postNormed (w : Weights R W E C ι) (delta : R) : R :=
  match w.postNorm with
  | some post => S.rmsnorm post w.rmsEps delta
  | none => delta

def sharedSum (shared : Option (ι → R → R)) (normed : R) : R :=
  match shared with
  | some expert => ∑ r, expert r normed
  | none => 0

/-- rmsnorm, block, all-reduce and post-norm. -/
def plainDelta : R :=
  let normed := plainNorm S call.w x
  match call.kind with
  | .moeCascade delta => delta x
  | .gdnLayer => shareSum call.w cache normed
  | .moeFfn shared => postNormed S call.w (shareSum call.w cache normed + sharedSum shared normed)
  | _ => postNormed S call.w (shareSum call.w cache normed)

def plainCache : C :=
  match call.kind with
  | .moeCascade _ => cache
  | _ => call.w.kernel.advance cache fun _ => plainNorm S call.w x

/-- The unfused forward: each block's normed input and the residual rows after it. -/
def plainTrace : List (Call R W E C ι) → C → R → List R
  | [], _, _ => []
  | call :: calls, cache, x =>
    let rows := x + plainDelta S call cache x
    plainRead S call x :: rows ::
      plainTrace calls (plainCache S call cache x) (call.after.foldl (fun x f => f x) rows)

end Plain

def Kind.projects : Kind R ι → Bool
  | .standardAttn | .denseFfn => true
  | _ => false

/-- The F16 projection is skipped for a fused hook that is not called. -/
def trips (call : Call R W E C ι) : Bool :=
  call.kind.projects && S.n == 1 && call.w.postNorm.isNone && call.w.decodesToF16 &&
    S.supportsArResidualRmsnorm && !S.supportsArResidual && call.next.isNone

/-- What the call adds to the residual; `k` is the launch of its kernel. -/
def madeDelta (call : Call R W E C ι) (cache : C) (x : R) (k : Nat) : R :=
  if trips S call then ∑ r, D.scratch k r else plainDelta S call cache x

/-- The slot that holds the residual. -/
def State.slot (s : State R C ι) : Loc := if s.currentResidualIsA then .residA else .residB

/-- A forward between two calls: `x` is the residual on every rank. -/
structure Ready (calls : List (Call R W E C ι)) (s : State R C ι) (resid : Loc) (x : R) (cache : C) :
    Prop where
  rows : s.mem resid = fun _ => x
  place : resid = .edge ∨ resid = s.slot
  fused : s.fusedResidualAlreadyDone = false
  kept : s.cache = cache
  normed : s.inputPreNormed = true → S.n = 1 ∧ ∃ call rest, calls = call :: rest ∧
    s.mem .norm = fun _ => plainNorm S call.w x

/-- A failure within a call that was to log `log`. -/
structure Failed (s₀ s : State R C ι) (log : List (ι → R)) : Prop where
  faulted : ∃ k, D.fault k = true
  preNormed : s.inputPreNormed = false
  fused : s.fusedResidualAlreadyDone = false
  trace : s.trace <+: s₀.trace ++ log

/-- Within a call, which has taken the flag and logged `log`. -/
structure Mid (s₀ s : State R C ι) (input : Loc) (x : R) (cache : C) (log : List (ι → R)) : Prop where
  rows : s.mem input = fun _ => x
  place : input = .edge ∨ input = s.slot
  preNormed : s.inputPreNormed = false
  fused : s.fusedResidualAlreadyDone = false
  kept : s.cache = cache
  trace : s.trace = s₀.trace ++ log

/-- What a composite leaves: the residual with `delta` folded in, in place or in the next
slot, or `delta` for the caller to add. -/
structure Made (next : Option W) (eps : E) (s₀ s : State R C ι) (input : Loc) (x delta : R) (cache : C)
    (log : List (ι → R)) (result : Option Loc) : Prop where
  kept : s.cache = cache
  trace : s.trace = s₀.trace ++ log
  out : match result with
    | none => s.mem input = (fun _ => x + delta) ∧ (input = .edge ∨ input = s.slot) ∧
        s.fusedResidualAlreadyDone = false ∧
        (s.inputPreNormed = true → S.n = 1 ∧ ∃ weight, next = some weight ∧
          s.mem .norm = fun _ => S.rmsnorm weight eps (x + delta))
    | some d => s.inputPreNormed = false ∧
        (s.fusedResidualAlreadyDone = true ∧ d = s.slot ∧ s.mem d = (fun _ => x + delta) ∨
          s.fusedResidualAlreadyDone = false ∧ d = .delta ∧ (input = .edge ∨ input = s.slot) ∧
            s.mem input = (fun _ => x) ∧ s.mem .delta = fun _ => delta)

/-- A buffer that is neither a residual slot nor an edge's. -/
def Loc.isScratch : Loc → Bool
  | .residA | .residB | .edge => false
  | _ => true

omit [AddCommMonoid R] [Fintype ι] in
theorem ends_launch (f : State R C ι → State R C ι) {Q : Unit → State R C ι → Prop}
    {F : State R C ι → Prop} {s : State R C ι} :
    Ends (launch D f) Q F s ↔
      (D.fault s.launches = true → F s.tick) ∧ (D.fault s.launches = false → Q () (f s.tick)) :=
  ends_guarded ..

variable {S D} {s₀ s : State R C ι} {input loc : Loc} {x : R} {cache : C} {log : List (ι → R)}
  {w : Weights R W E C ι} {next : Option W} {k : Nat}

omit [AddCommMonoid R] [Fintype ι] in
theorem scratch_ne (hplace : input = .edge ∨ input = s.slot) (hloc : loc.isScratch = true) :
    input ≠ loc := by
  rintro rfl
  rcases hplace with rfl | hslot
  · cases hloc
  · unfold State.slot at hslot
    split at hslot <;> rw [hslot] at hloc <;> cases hloc

namespace Mid

omit [AddCommMonoid R] [Fintype ι] in
theorem failed (h : Mid s₀ s input x cache log) (more : List (ι → R))
    (hfault : D.fault s.launches = true) : Failed D s₀ s.tick (log ++ more) := by
  refine ⟨⟨s.launches, hfault⟩, h.preNormed, h.fused, ?_⟩
  change s.trace <+: _
  rw [h.trace]
  exact ⟨more, List.append_assoc ..⟩

omit [AddCommMonoid R] [Fintype ι] in
/-- A launch that fills a scratch buffer. -/
theorem store (h : Mid s₀ s input x cache log) (hloc : loc.isScratch = true) {more : List (ι → R)}
    {v : State R C ι → ι → R} {Q : Unit → State R C ι → Prop}
    (hQ : ∀ s', Mid s₀ s' input x cache log → s'.mem = update s.mem loc (v s.tick) → Q () s') :
    Ends (launch D (State.store loc v)) Q (fun s' => Failed D s₀ s' (log ++ more)) s := by
  rw [ends_launch]
  refine ⟨h.failed more, fun _ => hQ _ ⟨?_, h.place, h.preNormed, h.fused, h.kept, h.trace⟩ rfl⟩
  change update s.mem loc (v s.tick) input = _
  rw [Function.update_of_ne (scratch_ne h.place hloc), h.rows]

end Mid

section Tails

variable {v : ι → R} {more : List (ι → R)}

/-- The all-reduce, the post-norm and, with one, the add. -/
theorem finishSum_ends (h : Mid s₀ s input x cache log) (hproj : s.mem .proj = v) :
    Ends (finishSum S D w input)
      (fun result s' => Made S next w.rmsEps s₀ s' input x (postNormed S w (∑ r, v r)) cache log result)
      (fun s' => Failed D s₀ s' (log ++ more)) s := by
  unfold finishSum arSumF32
  rw [ends_bind]
  refine h.store rfl fun s₁ h₁ hmem₁ => ?_
  have hsum : s₁.mem .proj = fun _ => ∑ r, v r := by
    rw [hmem₁, Function.update_self]
    funext _
    change ∑ r, s.mem .proj r = _
    rw [hproj]
  cases hpost : w.postNorm with
  | none =>
    dsimp only
    unfold castToDelta
    rw [ends_bind]
    refine h₁.store rfl fun s₂ h₂ hmem₂ => ?_
    rw [ends_pure]
    refine ⟨h₂.kept, h₂.trace, h₂.preNormed, .inr ⟨h₂.fused, rfl, h₂.place, h₂.rows, ?_⟩⟩
    rw [hmem₂, Function.update_self]
    change s₁.mem .proj = _
    rw [hsum, postNormed, hpost]
  | some post =>
    dsimp only
    unfold postNormAdd nextResidualSlot
    rw [ends_bind, ends_always, ends_bind, ends_launch]
    refine ⟨fun hfault => ⟨⟨_, hfault⟩, h₁.preNormed, h₁.fused, (h₁.failed more hfault).trace⟩, fun _ => ?_⟩
    rw [ends_bind, ends_always, ends_pure]
    refine ⟨h₁.kept, h₁.trace, h₁.preNormed, .inl ⟨rfl, ?_, ?_⟩⟩
    · unfold State.slot State.store State.tick
      dsimp only
      cases s₁.currentResidualIsA <;> rfl
    · unfold State.store State.tick
      dsimp only
      rw [Function.update_self, h₁.rows, hsum, postNormed, hpost]

/-- The shares added up in place. -/
theorem arResidualF16_ends (h : Mid s₀ s input x cache log) (hdelta : s.mem .delta = v) :
    Ends (do arResidualF16 D input; pure none : Act R C ι (Option Loc))
      (fun result s' => Made S next w.rmsEps s₀ s' input x (∑ r, v r) cache log result)
      (fun s' => Failed D s₀ s' (log ++ more)) s := by
  unfold arResidualF16
  rw [ends_bind, ends_launch]
  refine ⟨h.failed more, fun _ => ?_⟩
  rw [ends_pure]
  refine ⟨h.kept, h.trace, ?_, h.place, h.fused, ?_⟩
  · change update s.mem input (fun r => s.mem input r + ∑ r, s.mem .delta r) input = _
    rw [Function.update_self, h.rows, hdelta]
  · intro hpre
    exact absurd (h.preNormed.symm.trans hpre) Bool.false_ne_true

theorem arResidualRmsnormF16_ends {nextW : W} (h : Mid s₀ s input x cache log)
    (hdelta : s.mem .delta = v) (hn : S.n = 1) (hnext : next = some nextW) :
    Ends (do arResidualRmsnormF16 S D input nextW w.rmsEps; setPreNormed; pure none :
        Act R C ι (Option Loc))
      (fun result s' => Made S next w.rmsEps s₀ s' input x (∑ r, v r) cache log result)
      (fun s' => Failed D s₀ s' (log ++ more)) s := by
  have hne : input ≠ .norm := scratch_ne h.place rfl
  have hsum : update s.mem input (fun r => s.mem input r + ∑ r, s.mem .delta r) input =
      fun _ => x + ∑ r, v r := by
    rw [Function.update_self, h.rows, hdelta]
  unfold arResidualRmsnormF16 setPreNormed
  rw [ends_bind, ends_launch]
  refine ⟨h.failed more, fun _ => ?_⟩
  rw [ends_bind, ends_always, ends_pure]
  refine ⟨h.kept, h.trace, ?_, h.place, h.fused, fun _ => ⟨hn, nextW, hnext, ?_⟩⟩
  · change update (update s.mem input fun r => s.mem input r + ∑ r, s.mem .delta r) .norm
      (fun r => S.rmsnorm nextW w.rmsEps
        (update s.mem input (fun r => s.mem input r + ∑ r, s.mem .delta r) input r)) input = _
    rw [Function.update_of_ne hne, hsum]
  · change update (update s.mem input fun r => s.mem input r + ∑ r, s.mem .delta r) .norm
      (fun r => S.rmsnorm nextW w.rmsEps
        (update s.mem input (fun r => s.mem input r + ∑ r, s.mem .delta r) input r)) .norm = _
    rw [Function.update_self, hsum]

/-- The fold of `delta`, with the next norm or without. -/
theorem foldDelta_ends (h : Mid s₀ s input x cache log) (hdelta : s.mem .delta = v) (hn : S.n = 1) :
    Ends (foldDelta S D w input next)
      (fun result s' => Made S next w.rmsEps s₀ s' input x (∑ r, v r) cache log result)
      (fun s' => Failed D s₀ s' (log ++ more)) s := by
  unfold foldDelta
  cases next with
  | none => exact arResidualF16_ends h hdelta
  | some nextW =>
    dsimp only
    split
    · exact arResidualRmsnormF16_ends h hdelta hn rfl
    · exact arResidualF16_ends h hdelta

omit [AddCommMonoid R] [Fintype ι] in
theorem postNormed_none (hpost : w.postNorm.isNone = true) (delta : R) : postNormed S w delta = delta := by
  unfold postNormed
  rw [Option.isNone_iff_eq_none.mp hpost]

omit [AddCommMonoid R] [Fintype ι] in
/-- The F32 share, where it is computed at all. -/
theorem projectF32_ends (h : Mid s₀ s input x cache log) {stale : ι → R} (hact : s.mem .act = v)
    (hproj : s.mem .proj = stale) {Q : Unit → State R C ι → Prop}
    (hQ : ∀ s', Mid s₀ s' input x cache log → s'.mem .act = v →
      s'.mem .proj = (if f16Fast S w then stale else v) → Q () s') :
    Ends (skipWhen (f16Fast S w) (project D .proj)) Q
      (fun s' => Failed D s₀ s' (log ++ more)) s := by
  rw [ends_skipWhen]
  constructor <;> intro hfast
  · exact hQ s h hact (by rw [hfast, if_pos rfl, hproj])
  · refine h.store rfl fun s₁ h₁ hmem => hQ s₁ h₁ ?_ ?_
    · rw [hmem, Function.update_of_ne (by decide), hact]
    · rw [hmem, Function.update_self, hfast, if_neg Bool.false_ne_true]
      exact hact

omit [AddCommMonoid R] [Fintype ι] in
/-- The F16 share is the projection's, by either kernel. -/
theorem shareF16_ends (h : Mid s₀ s input x cache log) (hact : s.mem .act = v)
    (hproj : f16Fast S w = false → s.mem .proj = v) {Q : Unit → State R C ι → Prop}
    (hQ : ∀ s', Mid s₀ s' input x cache log → s'.mem .delta = v → Q () s') :
    Ends (shareF16 S D w) Q (fun s' => Failed D s₀ s' (log ++ more)) s := by
  unfold shareF16
  cases hfast : f16Fast S w with
  | true =>
    rw [if_pos rfl]
    refine h.store rfl fun s₁ h₁ hmem => hQ s₁ h₁ ?_
    rw [hmem, Function.update_self]
    exact hact
  | false =>
    rw [if_neg Bool.false_ne_true]
    refine h.store rfl fun s₁ h₁ hmem => hQ s₁ h₁ ?_
    rw [hmem, Function.update_self]
    exact hproj hfast

/-- The projection and its all-reduce, with the defect: where `tripped`, the sum is of what
the buffer held. -/
theorem outputPath_ends (h : Mid s₀ s input x cache log) {stale : ι → R} (hact : s.mem .act = v)
    (hproj : s.mem .proj = stale) :
    Ends (outputPath S D w input next)
      (fun result s' => Made S next w.rmsEps s₀ s' input x
        (if f16Fast S w && !S.supportsArResidual && next.isNone then ∑ r, stale r
          else postNormed S w (∑ r, v r)) cache log result)
      (fun s' => Failed D s₀ s' (log ++ more)) s := by
  unfold outputPath
  rw [ends_bind]
  refine projectF32_ends h hact hproj fun s₁ h₁ hact₁ hproj₁ => ?_
  have hslow : f16Fast S w = false → s₁.mem .proj = v := fun hfast => by
    rw [hproj₁, hfast, if_neg Bool.false_ne_true]
  split
  · rename_i nextW hfilter
    obtain ⟨hnext, hcond⟩ := Option.filter_eq_some_iff.mp hfilter
    simp only [Bool.and_eq_true, beq_iff_eq] at hcond
    obtain ⟨⟨hn, hpost⟩, -⟩ := hcond
    have hcase : (f16Fast S w && !S.supportsArResidual && next.isNone) = false := by
      rw [hnext]
      simp
    rw [hcase, if_neg Bool.false_ne_true, ends_bind]
    refine shareF16_ends h₁ hact₁ hslow fun s₂ h₂ hdelta => ?_
    rw [postNormed_none hpost]
    exact arResidualRmsnormF16_ends h₂ hdelta hn hnext
  · rename_i hfilter
    split
    · rename_i hcond
      simp only [Bool.and_eq_true] at hcond
      obtain ⟨hsupports, hpost⟩ := hcond
      have hcase : (f16Fast S w && !S.supportsArResidual && next.isNone) = false := by simp [hsupports]
      rw [hcase, if_neg Bool.false_ne_true, ends_bind]
      refine shareF16_ends h₁ hact₁ hslow fun s₂ h₂ hdelta => ?_
      rw [postNormed_none hpost]
      exact arResidualF16_ends h₂ hdelta
    · rename_i hcond
      have hsum := @finishSum_ends _ _ _ _ _ _ _ S D _ _ _ _ _ _ w next _ more h₁ hproj₁
      cases hfast : f16Fast S w with
      | false =>
        rw [hfast, if_neg Bool.false_ne_true] at hsum
        simpa using hsum
      | true =>
        have hcase : (true && !S.supportsArResidual && next.isNone) = true := by
          unfold f16Fast at hfast
          simp only [Bool.and_eq_true, beq_iff_eq, Bool.or_eq_true] at hfast
          obtain ⟨⟨⟨hn, hpost⟩, -⟩, hsupports⟩ := hfast
          have hresidual : S.supportsArResidual = false := by
            cases hr : S.supportsArResidual with
            | false => rfl
            | true => simp [hr, hpost] at hcond
          have hrms : S.supportsArResidualRmsnorm = true := by simpa [hresidual] using hsupports
          cases next with
          | none => simp [hresidual]
          | some nextW => simp [hn, hpost, hrms] at hfilter
        rw [hcase, if_pos rfl]
        rw [hfast, if_pos rfl] at hsum
        unfold f16Fast at hfast
        simp only [Bool.and_eq_true] at hfast
        rw [postNormed_none hfast.1.1.2] at hsum
        exact hsum

end Tails

end Flambeau.Forward.FusedResidual
