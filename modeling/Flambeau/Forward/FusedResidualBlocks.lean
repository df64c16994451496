import Flambeau.Forward.FusedResidualSpec

namespace Flambeau.Forward.FusedResidual
open Systems Fallible
open Function (update)

variable {R W E C ι : Type} {S : Setup R W E} {D : Device R ι} {s₀ s : State R C ι} {input loc : Loc}
  {x y : R} {cache : C} {log more : List (ι → R)} {w : Weights R W E C ι} {call : Call R W E C ι}
  {rest : List (Call R W E C ι)}

section Heads

variable {Q : Unit → State R C ι → Prop}

/-- From here on a failure leaves both flags down. -/
theorem takePreNormed_ends {Q : Bool → State R C ι → Prop} {F : State R C ι → Prop}
    (h : Ready S (call :: rest) s input x cache)
    (hQ : ∀ taken s', Mid s s' input x cache [] →
      (taken = true → S.n = 1 ∧ s'.mem .norm = fun _ => plainNorm S call.w x) → Q taken s') :
    Ends takePreNormed Q F s := by
  unfold takePreNormed
  rw [ends_always]
  refine hQ _ _ ⟨h.rows, h.place, rfl, h.fused, h.kept, (List.append_nil _).symm⟩ fun hpre => ?_
  obtain ⟨hn, call', rest', heq, hnorm⟩ := h.normed hpre
  cases heq
  exact ⟨hn, hnorm⟩

/-- A run of checks. -/
theorem checks_ends (h : Mid s₀ s input x cache log)
    (hQ : ∀ s', Mid s₀ s' input x cache log → s'.mem = s.mem → Q () s') :
    Ends (launch D id) Q (fun s' => Failed D s₀ s' (log ++ more)) s := by
  rw [ends_launch]
  exact ⟨h.failed more,
    fun _ => hQ _ ⟨h.rows, h.place, h.preNormed, h.fused, h.kept, h.trace⟩ rfl⟩

theorem rmsnormF16_ends (h : Mid s₀ s input x cache log)
    (hQ : ∀ s', Mid s₀ s' input x cache log → s'.mem .norm = (fun _ => plainNorm S w x) → Q () s') :
    Ends (rmsnormF16 S D w input) Q (fun s' => Failed D s₀ s' (log ++ more)) s := by
  refine h.store rfl fun s₁ h₁ hmem => hQ s₁ h₁ ?_
  rw [hmem, Function.update_self]
  funext r
  exact congrArg _ (congrFun h.rows r)

/-- The norm, unless the block before has left it. -/
theorem ownNorm_ends {taken : Bool} (h : Mid s₀ s input x cache log)
    (htaken : taken = true → s.mem .norm = fun _ => plainNorm S w x)
    (hQ : ∀ s', Mid s₀ s' input x cache log → s'.mem .norm = (fun _ => plainNorm S w x) → Q () s') :
    Ends (skipWhen taken (rmsnormF16 S D w input)) Q (fun s' => Failed D s₀ s' (log ++ more)) s := by
  rw [ends_skipWhen]
  exact ⟨fun hyes => hQ s h (htaken hyes), fun _ => rmsnormF16_ends h hQ⟩

theorem quantizeNorm_ends (h : Mid s₀ s input x cache log) (hnorm : s.mem .norm = fun _ => y)
    (hQ : ∀ s', Mid s₀ s' input x cache log → s'.mem .norm = (fun _ => y) →
      s'.mem .normQ8 = (fun _ => y) → Q () s') :
    Ends (quantizeNorm D) Q (fun s' => Failed D s₀ s' (log ++ more)) s := by
  refine h.store rfl fun s₁ h₁ hmem => hQ s₁ h₁ ?_ ?_
  · rw [hmem, Function.update_of_ne (by decide), hnorm]
  · rw [hmem, Function.update_self]
    exact hnorm

theorem rmsnormQuant_ends (h : Mid s₀ s input x cache log)
    (hQ : ∀ s', Mid s₀ s' input x cache log → s'.mem .normQ8 = (fun _ => plainNorm S w x) → Q () s') :
    Ends (rmsnormQuant S D w input) Q (fun s' => Failed D s₀ s' (log ++ more)) s := by
  refine h.store rfl fun s₁ h₁ hmem => hQ s₁ h₁ ?_
  rw [hmem, Function.update_self]
  funext r
  exact congrArg _ (congrFun h.rows r)

theorem normalise_ends {taken : Bool} (h : Mid s₀ s input x cache log)
    (htaken : taken = true → S.n = 1 ∧ s.mem .norm = fun _ => plainNorm S w x)
    (hQ : ∀ s', Mid s₀ s' input x cache log → s'.mem .normQ8 = (fun _ => plainNorm S w x) → Q () s') :
    Ends (normalise S D w input taken) Q (fun s' => Failed D s₀ s' (log ++ more)) s := by
  unfold normalise
  split
  · rename_i hcond
    have hyes : taken = true := (Bool.and_eq_true_iff.mp hcond).1
    exact quantizeNorm_ends h (htaken hyes).2 fun s' h' _ => hQ s' h'
  · split
    · rw [ends_bind]
      exact rmsnormF16_ends h fun s₁ h₁ hnorm =>
        quantizeNorm_ends h₁ hnorm fun s' h' _ => hQ s' h'
    · exact rmsnormQuant_ends h hQ

/-- The block reads its normed input, and leaves rows of its own in the projection's buffer. -/
theorem runKernel_ends (h : Mid s₀ s input x cache []) (hnorm : s.mem .normQ8 = fun _ => y)
    (hQ : ∀ s' k, Mid s₀ s' input x (w.kernel.advance cache fun _ => y) [fun _ => y] →
      s'.mem .act = (fun r => w.kernel.share cache r y) → s'.mem .proj = D.scratch k →
      s'.mem .norm = s.mem .norm → Q () s') :
    Ends (runKernel D w) Q (fun s' => Failed D s₀ s' [fun _ => y]) s := by
  unfold runKernel
  rw [ends_launch]
  refine ⟨h.failed _, fun _ => ?_⟩
  have hmem : ∀ loc, loc ≠ .act → loc ≠ .proj →
      update (update s.mem .act fun r => w.kernel.share s.cache r (s.mem .normQ8 r)) .proj
        (D.scratch (s.launches + 1)) loc = s.mem loc := fun loc hact hproj => by
    rw [Function.update_of_ne hproj, Function.update_of_ne hact]
  refine hQ _ (s.launches + 1) ⟨?_, h.place, h.preNormed, h.fused, ?_, ?_⟩ ?_ ?_ ?_
  · exact (hmem input (scratch_ne h.place rfl) (scratch_ne h.place rfl)).trans h.rows
  · change w.kernel.advance s.cache (s.mem .normQ8) = _
    rw [h.kept, hnorm]
  · change s.trace ++ [s.mem .normQ8] = _
    rw [h.trace, hnorm, List.append_nil]
  · change update (update s.mem .act fun r => w.kernel.share s.cache r (s.mem .normQ8 r)) .proj
      (D.scratch (s.launches + 1)) .act = _
    rw [Function.update_of_ne (by decide), Function.update_self, h.kept, hnorm]
  · change update (update s.mem .act fun r => w.kernel.share s.cache r (s.mem .normQ8 r)) .proj
      (D.scratch (s.launches + 1)) .proj = _
    rw [Function.update_self]
  · exact hmem .norm (by decide) (by decide)

end Heads

theorem trips_eq (hkind : call.kind.projects = true) :
    trips S call = (f16Fast S call.w && !S.supportsArResidual && call.next.isNone) := by
  unfold trips f16Fast
  rw [hkind]
  cases S.supportsArResidual <;> cases S.supportsArResidualRmsnorm <;> simp

theorem trips_other (hkind : call.kind.projects = false) : trips S call = false := by
  unfold trips
  rw [hkind]
  rfl

variable [AddCommMonoid R] [Fintype ι]

/-- What a composite makes of a call, for some launch of its kernel. -/
def Folds (S : Setup R W E) (D : Device R ι) (call : Call R W E C ι) (s : State R C ι) (input : Loc)
    (x : R) (cache : C) (result : Option Loc) (s' : State R C ι) : Prop :=
  ∃ k, Made S call.next call.w.rmsEps s s' input x (madeDelta S D call cache x k)
    (plainCache S call cache x) [fun _ => plainRead S call x] result

section Composites

/-- The blocks with one norm ahead and an optional one behind. -/
theorem plain_projects (hkind : call.kind.projects = true ∨ call.kind = .standardAttnMixed) :
    plainRead S call x = plainNorm S call.w x ∧
      plainDelta S call cache x = postNormed S call.w (shareSum call.w cache (plainNorm S call.w x)) ∧
      plainCache S call cache x = call.w.kernel.advance cache fun _ => plainNorm S call.w x := by
  unfold plainRead plainDelta plainCache
  cases hk : call.kind with
  | standardAttn => exact ⟨rfl, rfl, rfl⟩
  | standardAttnMixed => exact ⟨rfl, rfl, rfl⟩
  | denseFfn => exact ⟨rfl, rfl, rfl⟩
  | gdnLayer => rw [hk] at hkind; simp [Kind.projects] at hkind
  | moeFfn _ => rw [hk] at hkind; simp [Kind.projects] at hkind
  | moeCascade _ => rw [hk] at hkind; simp [Kind.projects] at hkind

/-- From the normed input on, in `standard_attn` and `dense_ffn`. -/
theorem blockThenOutput_ends (hkind : call.kind.projects = true)
    (h : Mid s₀ s input x cache []) (hnorm : s.mem .normQ8 = fun _ => plainNorm S call.w x) :
    Ends (do runKernel D call.w; outputPath S D call.w input call.next : Act R C ι (Option Loc))
      (Folds S D call s₀ input x cache) (fun s' => Failed D s₀ s' [fun _ => plainRead S call x]) s := by
  obtain ⟨hread, hdelta, hcache⟩ := @plain_projects _ _ _ _ _ S x cache call _ _ (.inl hkind)
  rw [hread, ends_bind]
  refine runKernel_ends h hnorm fun s₁ k h₁ hact hproj _ => ?_
  refine Ends.mono (outputPath_ends h₁ hact hproj) (fun result s' hmade => ⟨k, ?_⟩)
    fun s' hfailed => hfailed
  unfold madeDelta
  rw [hread, hdelta, hcache, trips_eq hkind]
  exact hmade

theorem standardAttn_ends (h : Ready S (call :: rest) s input x cache)
    (hkind : call.kind = .standardAttn) :
    Ends (standardAttnLocal S D call.w input call.next) (Folds S D call s input x cache)
      (fun s' => Failed D s s' [fun _ => plainRead S call x]) s := by
  unfold standardAttnLocal
  rw [ends_bind]
  refine takePreNormed_ends h fun taken s₁ h₁ htaken => ?_
  rw [ends_bind]
  refine checks_ends h₁ fun s₂ h₂ hmem => ?_
  rw [ends_bind]
  rw [← hmem] at htaken
  exact normalise_ends h₂ htaken fun s₃ h₃ hnorm =>
    blockThenOutput_ends (by rw [hkind]; rfl) h₃ hnorm

theorem denseFfn_ends (h : Ready S (call :: rest) s input x cache) (hkind : call.kind = .denseFfn) :
    Ends (denseFfnLocal S D call.w input call.next) (Folds S D call s input x cache)
      (fun s' => Failed D s s' [fun _ => plainRead S call x]) s := by
  unfold denseFfnLocal
  rw [ends_bind]
  refine takePreNormed_ends h fun taken s₁ h₁ htaken => ?_
  rw [ends_bind]
  exact normalise_ends h₁ htaken fun s₂ h₂ hnorm =>
    blockThenOutput_ends (by rw [hkind]; rfl) h₂ hnorm

/-- Of a call that cannot trip. -/
theorem folds_ends {m : Act R C ι (Option Loc)} {F : State R C ι → Prop} {k : Nat}
    (htrips : trips S call = false)
    (hmade : Ends m (fun result s' => Made S call.next call.w.rmsEps s₀ s' input x
      (plainDelta S call cache x) (plainCache S call cache x) [fun _ => plainRead S call x] result) F s) :
    Ends m (Folds S D call s₀ input x cache) F s := by
  refine Ends.mono hmade (fun result s' h => ⟨k, ?_⟩) fun s' h => h
  unfold madeDelta
  rw [htrips, if_neg Bool.false_ne_true]
  exact h

section Moves

variable {v : ι → R} {Q : Unit → State R C ι → Prop}

omit [AddCommMonoid R] [Fintype ι] in
theorem project_ends (h : Mid s₀ s input x cache log) (hloc : loc.isScratch = true)
    (hact : s.mem .act = v) (hne : loc ≠ .norm)
    (hQ : ∀ s', Mid s₀ s' input x cache log → s'.mem loc = v → s'.mem .norm = s.mem .norm → Q () s') :
    Ends (project D loc) Q (fun s' => Failed D s₀ s' (log ++ more)) s := by
  refine h.store hloc fun s₁ h₁ hmem => hQ s₁ h₁ ?_ ?_
  · rw [hmem, Function.update_self]
    exact hact
  · rw [hmem, Function.update_of_ne hne.symm]

omit [AddCommMonoid R] [Fintype ι] in
theorem castToDelta_ends (h : Mid s₀ s input x cache log) (hproj : s.mem .proj = v)
    (hQ : ∀ s', Mid s₀ s' input x cache log → s'.mem .delta = v → s'.mem .norm = s.mem .norm →
      Q () s') :
    Ends (castToDelta D) Q (fun s' => Failed D s₀ s' (log ++ more)) s := by
  refine h.store rfl fun s₁ h₁ hmem => hQ s₁ h₁ ?_ ?_
  · rw [hmem, Function.update_self]
    exact hproj
  · rw [hmem, Function.update_of_ne (by decide)]

theorem arSum_ends (h : Mid s₀ s input x cache log) (hbuf : s.mem .proj = v)
    (hQ : ∀ s', Mid s₀ s' input x cache log → s'.mem .proj = (fun _ => ∑ r, v r) →
      s'.mem .norm = s.mem .norm → Q () s') :
    Ends (arSumF32 D .proj) Q (fun s' => Failed D s₀ s' (log ++ more)) s := by
  refine h.store rfl fun s₁ h₁ hmem => hQ s₁ h₁ ?_ ?_
  · rw [hmem, Function.update_self]
    funext _
    change ∑ r, s.mem .proj r = _
    rw [hbuf]
  · rw [hmem, Function.update_of_ne (by decide)]

/-- What the shared expert adds on a rank. -/
def sharedShare (shared : Option (ι → R → R)) (synced : Bool) (y : R) (r : ι) : R :=
  match shared with
  | none => 0
  | some expert => if synced then ∑ r, expert r y else expert r y

theorem sharedShare_synced (shared : Option (ι → R → R)) (r : ι) :
    sharedShare shared true y r = sharedSum shared y := by
  cases shared <;> rfl

theorem sum_sharedShare (shared : Option (ι → R → R)) :
    ∑ r, sharedShare shared false y r = sharedSum shared y := by
  cases shared with
  | none => exact Finset.sum_const_zero
  | some expert => rfl

theorem sharedExpert_ends (shared : Option (ι → R → R)) (synced : Bool)
    (h : Mid s₀ s input x cache log) (hdelta : s.mem .delta = v) (hnorm : s.mem .norm = fun _ => y)
    (hQ : ∀ s', Mid s₀ s' input x cache log →
      s'.mem .delta = (fun r => v r + sharedShare shared synced y r) → Q () s') :
    Ends (sharedExpert D shared synced) Q (fun s' => Failed D s₀ s' (log ++ more)) s := by
  unfold sharedExpert
  cases shared with
  | none =>
    refine hQ s h ?_
    rw [hdelta]
    funext r
    exact (add_zero (v r)).symm
  | some expert =>
    dsimp only
    rw [ends_bind]
    refine h.store rfl fun s₁ h₁ hmem₁ => ?_
    have hshare : s₁.mem .shared = fun r => expert r y := by
      rw [hmem₁, Function.update_self]
      change (fun r => expert r (s.mem .norm r)) = _
      rw [hnorm]
    have hdelta₁ : s₁.mem .delta = v := by rw [hmem₁, Function.update_of_ne (by decide), hdelta]
    have hadd : ∀ s₂ : State R C ι, Mid s₀ s₂ input x cache log → s₂.mem .delta = v →
        s₂.mem .shared = sharedShare (some expert) synced y →
        Ends (launch D (State.store .delta fun s r => s.mem .delta r + s.mem .shared r)) Q
          (fun s' => Failed D s₀ s' (log ++ more)) s₂ := fun s₂ h₂ hdelta₂ hshared₂ => by
      refine h₂.store rfl fun s₃ h₃ hmem₃ => hQ s₃ h₃ ?_
      rw [hmem₃, Function.update_self]
      change (fun r => s₂.mem .delta r + s₂.mem .shared r) = _
      rw [hdelta₂, hshared₂]
    rw [ends_bind, ends_skipWhen]
    cases synced with
    | false => exact ⟨fun _ => hadd s₁ h₁ hdelta₁ hshare, nofun⟩
    | true =>
      refine ⟨nofun, fun _ => ?_⟩
      refine h₁.store rfl fun s₂ h₂ hmem₂ => hadd s₂ h₂ ?_ ?_
      · rw [hmem₂, Function.update_of_ne (by decide), hdelta₁]
      · rw [hmem₂, Function.update_self]
        change (fun _ => ∑ r, s₁.mem .shared r) = _
        rw [hshare]
        rfl

omit [AddCommMonoid R] [Fintype ι] in
theorem postNormDelta_ends (h : Mid s₀ s input x cache log) (hdelta : s.mem .delta = fun _ => y)
    (hQ : ∀ s', Mid s₀ s' input x cache log → s'.mem .delta = (fun _ => postNormed S w y) → Q () s') :
    Ends (postNormDelta S D w) Q (fun s' => Failed D s₀ s' (log ++ more)) s := by
  unfold postNormDelta
  unfold postNormed at hQ
  cases hpost : w.postNorm with
  | none =>
    rw [hpost] at hQ
    exact hQ s h hdelta
  | some post =>
    rw [hpost] at hQ
    refine h.store rfl fun s₁ h₁ hmem => hQ s₁ h₁ ?_
    rw [hmem, Function.update_self]
    change (fun r => S.rmsnorm post w.rmsEps (s.mem .delta r)) = _
    rw [hdelta]

end Moves

theorem standardAttnMixed_ends (h : Ready S (call :: rest) s input x cache)
    (hkind : call.kind = .standardAttnMixed) :
    Ends (standardAttnMixedLocal S D call.w input call.next) (Folds S D call s input x cache)
      (fun s' => Failed D s s' [fun _ => plainRead S call x]) s := by
  obtain ⟨hread, hdelta, hcache⟩ := @plain_projects _ _ _ _ _ S x cache call _ _ (.inr hkind)
  have htrips : trips S call = false := trips_other (by rw [hkind]; rfl)
  unfold standardAttnMixedLocal
  rw [ends_bind]
  refine takePreNormed_ends h fun taken s₁ h₁ htaken => ?_
  rw [ends_bind]
  refine checks_ends h₁ fun s₂ h₂ hmem₂ => ?_
  rw [← hmem₂] at htaken
  rw [ends_bind]
  refine ownNorm_ends h₂ (fun hyes => (htaken hyes).2) fun s₃ h₃ hnorm₃ => ?_
  rw [ends_bind]
  refine quantizeNorm_ends h₃ hnorm₃ fun s₄ h₄ _ hnorm₄ => ?_
  rw [ends_bind, hread]
  refine runKernel_ends h₄ hnorm₄ fun s₅ k h₅ hact _ _ => ?_
  rw [ends_bind]
  refine project_ends h₅ rfl hact (by decide) fun s₆ h₆ hproj _ => ?_
  split
  · rename_i hcond
    simp only [Bool.and_eq_true] at hcond
    rw [ends_bind]
    refine castToDelta_ends h₆ hproj fun s₇ h₇ hdelta₇ _ => ?_
    refine folds_ends (k := k) htrips ?_
    rw [hread, hdelta, hcache, postNormed_none hcond.2]
    exact arResidualF16_ends h₇ hdelta₇
  · refine folds_ends (k := k) htrips ?_
    rw [hread, hdelta, hcache]
    exact finishSum_ends h₆ hproj

theorem gdnLayer_ends (h : Ready S (call :: rest) s input x cache) (hkind : call.kind = .gdnLayer) :
    Ends (gdnLayerLocal S D call.w input call.next) (Folds S D call s input x cache)
      (fun s' => Failed D s s' [fun _ => plainRead S call x]) s := by
  have hread : plainRead S call x = plainNorm S call.w x := by unfold plainRead; rw [hkind]
  have hdelta : plainDelta S call cache x = shareSum call.w cache (plainNorm S call.w x) := by
    unfold plainDelta; rw [hkind]
  have hcache : plainCache S call cache x =
      call.w.kernel.advance cache fun _ => plainNorm S call.w x := by unfold plainCache; rw [hkind]
  have htrips : trips S call = false := trips_other (by rw [hkind]; rfl)
  unfold gdnLayerLocal
  rw [ends_bind]
  refine takePreNormed_ends h fun _ s₁ h₁ _ => ?_
  rw [ends_bind]
  refine checks_ends h₁ fun s₂ h₂ _ => ?_
  rw [ends_bind]
  refine rmsnormQuant_ends h₂ fun s₃ h₃ hnorm => ?_
  rw [ends_bind, hread]
  refine runKernel_ends h₃ hnorm fun s₄ k h₄ hact _ _ => ?_
  split
  · rename_i hcond
    simp only [Bool.and_eq_true, beq_iff_eq] at hcond
    rw [ends_bind]
    refine project_ends h₄ rfl hact (by decide) fun s₅ h₅ hdelta₅ _ => ?_
    refine folds_ends (k := k) htrips ?_
    rw [hread, hdelta, hcache]
    exact foldDelta_ends h₅ hdelta₅ hcond.1
  · rw [ends_bind]
    refine project_ends h₄ rfl hact (by decide) fun s₅ h₅ hproj _ => ?_
    rw [ends_bind]
    refine arSum_ends h₅ hproj fun s₆ h₆ hsum _ => ?_
    rw [ends_bind]
    refine castToDelta_ends h₆ hsum fun s₇ h₇ hdelta₇ _ => ?_
    refine folds_ends (k := k) htrips ?_
    rw [ends_pure, hread, hdelta, hcache]
    exact ⟨h₇.kept, h₇.trace, h₇.preNormed, .inr ⟨h₇.fused, rfl, h₇.place, h₇.rows, hdelta₇⟩⟩

theorem moeFfn_ends {shared : Option (ι → R → R)} (h : Ready S (call :: rest) s input x cache)
    (hkind : call.kind = .moeFfn shared) :
    Ends (moeFfnLocal S D call.w input call.next shared) (Folds S D call s input x cache)
      (fun s' => Failed D s s' [fun _ => plainRead S call x]) s := by
  have hread : plainRead S call x = plainNorm S call.w x := by unfold plainRead; rw [hkind]
  have hdelta : plainDelta S call cache x = postNormed S call.w
      (shareSum call.w cache (plainNorm S call.w x) + sharedSum shared (plainNorm S call.w x)) := by
    unfold plainDelta; rw [hkind]
  have hcache : plainCache S call cache x =
      call.w.kernel.advance cache fun _ => plainNorm S call.w x := by unfold plainCache; rw [hkind]
  have htrips : trips S call = false := trips_other (by rw [hkind]; rfl)
  unfold moeFfnLocal
  rw [ends_bind]
  refine takePreNormed_ends h fun taken s₁ h₁ htaken => ?_
  rw [ends_bind]
  refine checks_ends h₁ fun s₂ h₂ hmem₂ => ?_
  rw [← hmem₂] at htaken
  rw [ends_bind]
  refine ownNorm_ends h₂ (fun hyes => (htaken (Bool.and_eq_true_iff.mp hyes).2).2)
    fun s₃ h₃ hnorm₃ => ?_
  rw [ends_bind]
  refine quantizeNorm_ends h₃ hnorm₃ fun s₄ h₄ hnorm₄ hnormQ8 => ?_
  rw [ends_bind, hread]
  refine runKernel_ends h₄ hnormQ8 fun s₅ k h₅ hact _ hnorm₅ => ?_
  rw [ends_bind]
  refine project_ends h₅ rfl hact (by decide) fun s₆ h₆ hproj hnorm₆ => ?_
  split
  · rename_i hcond
    simp only [Bool.and_eq_true, beq_iff_eq] at hcond
    rw [ends_bind]
    refine castToDelta_ends h₆ hproj fun s₇ h₇ hdelta₇ hnorm₇ => ?_
    rw [ends_bind]
    refine sharedExpert_ends shared false h₇ hdelta₇
      (by rw [hnorm₇, hnorm₆, hnorm₅, hnorm₄]) fun s₈ h₈ hdelta₈ => ?_
    refine folds_ends (k := k) htrips ?_
    have hsum : ∑ r, (call.w.kernel.share cache r (plainNorm S call.w x) +
        sharedShare shared false (plainNorm S call.w x) r) =
        shareSum call.w cache (plainNorm S call.w x) + sharedSum shared (plainNorm S call.w x) := by
      rw [Finset.sum_add_distrib, sum_sharedShare]
      rfl
    rw [hread, hdelta, hcache, postNormed_none hcond.2, ← hsum]
    exact foldDelta_ends h₈ hdelta₈ hcond.1.1
  · unfold moeSum
    rw [ends_bind]
    refine arSum_ends h₆ hproj fun s₇ h₇ hsum hnorm₇ => ?_
    rw [ends_bind]
    refine castToDelta_ends h₇ hsum fun s₈ h₈ hdelta₈ hnorm₈ => ?_
    rw [ends_bind]
    refine sharedExpert_ends shared true h₈ hdelta₈
      (by rw [hnorm₈, hnorm₇, hnorm₆, hnorm₅, hnorm₄]) fun s₉ h₉ hdelta₉ => ?_
    rw [ends_bind]
    simp only [sharedShare_synced] at hdelta₉
    refine postNormDelta_ends h₉ hdelta₉ fun s₁₀ h₁₀ hdelta₁₀ => ?_
    refine folds_ends (k := k) htrips ?_
    rw [ends_pure, hread, hdelta, hcache]
    exact ⟨h₁₀.kept, h₁₀.trace, h₁₀.preNormed, .inr ⟨h₁₀.fused, rfl, h₁₀.place, h₁₀.rows, hdelta₁₀⟩⟩

theorem moeCascade_ends {delta : R → R} (h : Ready S (call :: rest) s input x cache)
    (hkind : call.kind = .moeCascade delta) :
    Ends (moeCascadeLocal D input delta) (Folds S D call s input x cache)
      (fun s' => Failed D s s' [fun _ => plainRead S call x]) s := by
  have hread : plainRead S call x = x := by unfold plainRead; rw [hkind]
  have hdelta : plainDelta S call cache x = delta x := by unfold plainDelta; rw [hkind]
  have hcache : plainCache S call cache x = cache := by unfold plainCache; rw [hkind]
  refine folds_ends (k := 0) (trips_other (by rw [hkind]; rfl)) ?_
  unfold moeCascadeLocal
  rw [ends_bind, hread, hdelta, hcache]
  refine takePreNormed_ends h fun _ s₁ h₁ _ => ?_
  rw [ends_bind, ends_launch]
  refine ⟨h₁.failed _, fun _ => ?_⟩
  rw [ends_pure]
  refine ⟨h₁.kept, ?_, h₁.preNormed, .inr ⟨h₁.fused, rfl, h₁.place, ?_, ?_⟩⟩
  · change s₁.trace ++ [s₁.mem input] = _
    rw [h₁.trace, h₁.rows, List.append_nil]
  · change update s₁.mem .delta (fun r => delta (s₁.mem input r)) input = _
    rw [Function.update_of_ne (scratch_ne h₁.place rfl), h₁.rows]
  · change update s₁.mem .delta (fun r => delta (s₁.mem input r)) .delta = _
    rw [Function.update_self, h₁.rows]

/-- Every composite, on every path, does to the residual what its block says. -/
theorem composite_ends (h : Ready S (call :: rest) s input x cache) :
    Ends (composite S D call input) (Folds S D call s input x cache)
      (fun s' => Failed D s s' [fun _ => plainRead S call x]) s := by
  unfold composite
  cases hkind : call.kind with
  | standardAttn => exact standardAttn_ends h hkind
  | standardAttnMixed => exact standardAttnMixed_ends h hkind
  | gdnLayer => exact gdnLayer_ends h hkind
  | denseFfn => exact denseFfn_ends h hkind
  | moeFfn shared => exact moeFfn_ends h hkind
  | moeCascade delta => exact moeCascade_ends h hkind

end Composites

end Flambeau.Forward.FusedResidual
