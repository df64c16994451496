import Flambeau.Runtime.DistributionAgrees

namespace Flambeau.Runtime.Exact

namespace Sampling
variable (mode : Sampling ℝ)

/-! The filters' cut. -/

theorem topPEnd_pos (p c : ℝ) {sorted : List (Nat × ℝ)} (hne : sorted ≠ []) : 0 < topPEnd p c sorted := by
  obtain ⟨q, rest, rfl⟩ := List.exists_cons_of_ne_nil hne
  rw [topPEnd]
  split <;> omega

theorem topPEnd_take (p c : ℝ) (sorted : List (Nat × ℝ)) (m : Nat) :
    topPEnd p c (sorted.take m) = min m (topPEnd p c sorted) := by
  induction sorted generalizing c m with
  | nil =>
    rw [List.take_nil]
    exact (Nat.min_zero m).symm
  | cons q rest ih =>
    cases m with
    | zero => exact (Nat.zero_min _).symm
    | succ m =>
      rw [List.take_succ_cons, topPEnd, topPEnd]
      split
      · omega
      · rw [ih]
        omega

/-- The front ends within `m` entries just when their weights reach `p`. -/
theorem topPEnd_le {p c : ℝ} {sorted : List (Nat × ℝ)} (hpos : ∀ q ∈ sorted, 0 < q.2) (hm : 0 < m) :
    topPEnd p c sorted ≤ m ↔ p ≤ c + mass (sorted.take m) ∨ sorted.length ≤ m := by
  induction sorted generalizing c m with
  | nil => exact iff_of_true (Nat.zero_le m) (.inr (Nat.zero_le m))
  | cons q rest ih =>
    obtain ⟨m, rfl⟩ := Nat.exists_eq_add_of_le' hm
    have hrest : ∀ r ∈ rest, 0 < r.2 := fun r hr => hpos r (List.mem_cons_of_mem q hr)
    have hnonneg : ∀ k, 0 ≤ mass (rest.take k) := by
      intro k
      refine List.sum_nonneg ?_
      intro w hw
      obtain ⟨r, hr, rfl⟩ := List.mem_map.mp hw
      exact le_of_lt (hrest r (List.mem_of_mem_take hr))
    rw [List.take_succ_cons, mass_cons, topPEnd, List.length_cons, ← add_assoc]
    by_cases hhit : p ≤ c + q.2
    · rw [if_pos hhit]
      have hmass := hnonneg m
      exact iff_of_true (by omega) (.inl (by linarith))
    · rw [if_neg hhit, Nat.add_le_add_iff_right, Nat.add_le_add_iff_right]
      cases m with
      | zero =>
        rw [List.take_zero, mass_nil, add_zero]
        constructor
        · intro hle
          by_cases hnil : rest = []
          · exact .inr (by rw [hnil]; rfl)
          · have hend := topPEnd_pos p (c + q.2) hnil
            omega
        · rintro (hle | hle)
          · exact absurd hle hhit
          · rw [List.eq_nil_of_length_eq_zero (Nat.le_zero.mp hle)]
            exact Nat.le_refl 0
      | succ m => exact ih hrest (Nat.succ_pos m)

theorem topPStop_pos {sorted : List (Nat × ℝ)} (hne : sorted ≠ []) (hstop : 0 < stop) : 0 < mode.topPStop sorted stop := by
  have htake : sorted.take stop ≠ [] := by
    intro hnil
    rcases List.take_eq_nil_iff.mp hnil with h | h
    · omega
    · exact hne h
  unfold topPStop
  cases mode.topP with
  | none => exact hstop
  | some p =>
    dsimp only
    split
    · exact topPEnd_pos p 0 htake
    · exact hstop

theorem cut_pos {sorted : List (Nat × ℝ)} (hne : sorted ≠ []) : 0 < mode.cut sorted := by
  have hk : 0 < mode.topKStop sorted := by
    have hlen := List.length_pos_of_ne_nil hne
    unfold topKStop
    cases hk : mode.topK with
    | none => exact hlen
    | some k =>
      have hpos := mode.topKPos k hk
      dsimp only
      omega
  have hp := mode.topPStop_pos hne hk
  unfold cut minPStop
  split
  · split
    · omega
    · exact hp
  · exact hp

/-- Without a `top_k`, a front of the sorted entries is cut where the whole is, or not at all. -/
theorem cut_take (htop : mode.topK = none) {sorted : List (Nat × ℝ)} (hm : 0 < m) (hle : m ≤ sorted.length) :
    mode.cut (sorted.take m) = min m (mode.cut sorted) := by
  obtain ⟨top, rest, rfl⟩ := List.exists_cons_of_length_pos (Nat.lt_of_lt_of_le hm hle)
  obtain ⟨k, rfl⟩ := Nat.exists_eq_add_of_le' hm
  have hlen : (List.take (k + 1) (top :: rest)).length = k + 1 := by rw [List.length_take, Nat.min_eq_left hle]
  have hstop : mode.topPStop (List.take (k + 1) (top :: rest)) (k + 1) =
      min (k + 1) (mode.topPStop (top :: rest) (top :: rest).length) := by
    unfold topPStop
    cases mode.topP with
    | none => exact (Nat.min_eq_left hle).symm
    | some p =>
      dsimp only
      split
      · rw [List.take_take, Nat.min_self, List.take_length, topPEnd_take]
      · exact (Nat.min_eq_left hle).symm
  unfold cut topKStop
  rw [htop]
  dsimp only
  rw [hlen, hstop]
  generalize mode.topPStop (top :: rest) (top :: rest).length = t
  rw [List.take_succ_cons]
  unfold minPStop
  cases mode.minP with
  | none => rfl
  | some minP =>
    dsimp only
    split
    · rw [← List.take_succ_cons, List.take_take, List.findIdx_take, List.findIdx_take]
      omega
    · rfl

end Sampling

/-! The cap of 2048 that the sampler adds. -/

/-- A filter is set and `top_k` is not, over a vocabulary that is larger than the cap. -/
def Sampling.Capped (mode : Sampling ℝ) (vocab : Nat) : Prop :=
  mode.topK = none ∧ mode.anyFilter = true ∧ Sampling.topKAutoCap < vocab

/-- The softmax weights of the tokens, the largest first. -/
noncomputable def largest (mode : Sampling ℝ) (view : List ℝ) : List ℝ :=
  (Sampling.softmax Real.exp mode.invT view).mergeSort fun a b => decide (b ≤ a)

/-- `top_p` is reached within the 2048 most probable tokens, or `min_p` drops the next one. -/
def Fits (mode : Sampling ℝ) (view : List ℝ) : Prop :=
  (∃ p, mode.topP = some p ∧ p < 1 ∧ 0 < p ∧ p ≤ ((largest mode view).take Sampling.topKAutoCap).sum) ∨
    ∃ minP w top, mode.minP = some minP ∧ 0 < minP ∧ (largest mode view)[Sampling.topKAutoCap]? = some w ∧
      (largest mode view).head? = some top ∧ w < top * minP

section
variable (U : UnstableDesc ℝ) (mode : Sampling ℝ) {view : List ℝ}

/-- Sorted weights are the same in whatever order equal ones come. -/
theorem sorted_weights {pairs : List (Nat × ℝ)} : (U.sort pairs).map (·.2) =
    (pairs.map (·.2)).mergeSort fun a b => decide (b ≤ a) := by
  refine @List.Perm.eq_of_pairwise _ (fun a b : ℝ => b ≤ a) _ _ (fun a b _ _ hab hba => le_antisymm hba hab) ?_ ?_ ?_
  · exact List.pairwise_map.mpr (U.sort_spec pairs)
  · refine (List.pairwise_mergeSort ?_ ?_ _).imp fun h => of_decide_eq_true h
    · intro a b c hab hbc
      exact decide_eq_true (le_trans (of_decide_eq_true hbc) (of_decide_eq_true hab))
    · intro a b
      rw [Bool.or_eq_true, decide_eq_true_eq, decide_eq_true_eq]
      exact le_total b a
  · exact ((U.sort_perm pairs).map _).trans (List.mergeSort_perm _ _).symm

/-- With weights that are all different, the partial sort finds the front of the whole sort. -/
theorem sort_select {pairs : List (Nat × ℝ)} (hdistinct : (pairs.map (·.2)).Nodup) (hk : k ≤ pairs.length) :
    U.sort ((U.select k pairs).take k) = (U.sort pairs).take k := by
  have hlen : ((U.select k pairs).take k).length = k := by
    rw [List.length_take, (U.select_perm k pairs).length_eq, Nat.min_eq_left hk]
  have hsplit : U.sort ((U.select k pairs).take k) ++ U.sort ((U.select k pairs).drop k) = U.sort pairs := by
    refine @List.Perm.eq_of_pairwise _ (fun a b : Nat × ℝ => b.2 ≤ a.2) _ _ ?_ ?_ (U.sort_spec pairs) ?_
    · intro a b ha hb hab hba
      have hmem : ∀ q, q ∈ U.sort ((U.select k pairs).take k) ++ U.sort ((U.select k pairs).drop k) → q ∈ pairs := by
        intro q hq
        rw [← (U.select_perm k pairs).mem_iff, ← List.take_append_drop k (U.select k pairs)]
        rcases List.mem_append.mp hq with hq | hq
        · exact List.mem_append_left _ ((U.sort_perm _).mem_iff.mp hq)
        · exact List.mem_append_right _ ((U.sort_perm _).mem_iff.mp hq)
      exact List.inj_on_of_nodup_map hdistinct (hmem a ha) ((U.sort_perm pairs).mem_iff.mp hb) (le_antisymm hba hab)
    · refine List.pairwise_append.mpr ⟨U.sort_spec _, U.sort_spec _, ?_⟩
      intro a ha b hb
      exact U.select_spec k pairs a ((U.sort_perm _).mem_iff.mp ha) b ((U.sort_perm _).mem_iff.mp hb)
    · refine ((U.sort_perm _).append (U.sort_perm _)).trans ?_
      rw [List.take_append_drop]
      exact (U.select_perm k pairs).trans (U.sort_perm pairs).symm
  rw [← hsplit, List.take_left' ((U.sort_perm _).length_eq.trans hlen)]

/-- The cut comes within the cap just when the filters need no more. -/
theorem cut_fits (hcap : mode.Capped view.length) :
    mode.cut (U.sort (mode.pairs Real.exp view)) ≤ Sampling.topKAutoCap ↔ Fits mode view := by
  obtain ⟨htop, -, hvocab⟩ := hcap
  have hweights : (U.sort (mode.pairs Real.exp view)).map (·.2) = largest mode view := by
    rw [sorted_weights, pairs_snd, largest]
  have hpos : ∀ q ∈ U.sort (mode.pairs Real.exp view), 0 < q.2 :=
    fun q hq => (pairs_weighted mode).pos q ((U.sort_perm _).mem_iff.mp hq)
  have hlen : (U.sort (mode.pairs Real.exp view)).length = view.length := by
    rw [(U.sort_perm _).length_eq, pairs_length]
  have hsorted := U.sort_spec (mode.pairs Real.exp view)
  unfold Fits
  rw [← hweights]
  generalize U.sort (mode.pairs Real.exp view) = sorted at hpos hlen hsorted
  have hmass : ((sorted.map (·.2)).take Sampling.topKAutoCap).sum = mass (sorted.take Sampling.topKAutoCap) := by
    rw [mass, List.map_take]
  have hstop : mode.topPStop sorted sorted.length ≤ Sampling.topKAutoCap ↔ ∃ p, mode.topP = some p ∧ p < 1 ∧ 0 < p ∧
      p ≤ ((sorted.map (·.2)).take Sampling.topKAutoCap).sum := by
    unfold Sampling.topPStop
    cases hp : mode.topP with
    | none =>
      refine iff_of_false ?_ (by rintro ⟨p, h, -⟩; cases h)
      dsimp only
      omega
    | some p =>
      dsimp only
      by_cases hactive : p < 1 ∧ 0 < p
      · rw [if_pos hactive, List.take_length, Sampling.topPEnd_le hpos (by decide), zero_add, hmass]
        constructor
        · rintro (hle | hle)
          · exact ⟨p, rfl, hactive.1, hactive.2, hle⟩
          · omega
        · rintro ⟨p', hp', -, -, hle⟩
          cases hp'
          exact .inl hle
      · rw [if_neg hactive]
        refine iff_of_false (by omega) ?_
        rintro ⟨p', hp', hlt, hgt, -⟩
        cases hp'
        exact hactive ⟨hlt, hgt⟩
  obtain ⟨top, rest, rfl⟩ := List.exists_cons_of_length_pos (l := sorted) (by omega)
  have hdrop : ∀ minP : ℝ, (top :: rest).findIdx (fun q => decide (q.2 < top.2 * minP)) ≤ Sampling.topKAutoCap ↔
      ∃ w, ((top :: rest).map (·.2))[Sampling.topKAutoCap]? = some w ∧ w < top.2 * minP := by
    intro minP
    have hin : Sampling.topKAutoCap < (top :: rest).length := by omega
    have hget : ((top :: rest).map (·.2))[Sampling.topKAutoCap]? = some (top :: rest)[Sampling.topKAutoCap].2 := by
      rw [List.getElem?_map, List.getElem?_eq_getElem hin]
      rfl
    constructor
    · intro hle
      have hlt : (top :: rest).findIdx (fun q => decide (q.2 < top.2 * minP)) < (top :: rest).length := by omega
      have hfound := of_decide_eq_true (List.findIdx_getElem (w := hlt))
      refine ⟨_, hget, ?_⟩
      rcases Nat.lt_or_eq_of_le hle with hbefore | hhere
      · have horder := List.pairwise_iff_getElem.mp hsorted _ _ hlt hin hbefore
        exact lt_of_le_of_lt horder hfound
      · simp only [hhere] at hfound
        exact hfound
    · rintro ⟨w, hw, hlt⟩
      rw [hget] at hw
      cases hw
      apply Nat.le_of_not_lt
      intro hbefore
      have hnot := List.not_of_lt_findIdx hbefore
      rw [decide_eq_false_iff_not] at hnot
      exact hnot hlt
  unfold Sampling.cut Sampling.topKStop
  rw [htop]
  dsimp only
  rw [← hstop]
  generalize mode.topPStop (top :: rest) (top :: rest).length = t
  unfold Sampling.minPStop
  cases hminP : mode.minP with
  | none =>
    refine ⟨fun h => .inl h, ?_⟩
    rintro (h | ⟨minP, w, v, h, -⟩)
    · exact h
    · cases h
  | some minP =>
    dsimp only
    by_cases hactive : 0 < minP
    · rw [if_pos hactive, List.findIdx_take]
      have hone : 1 ≤ Sampling.topKAutoCap := by decide
      have hmin : max (min t ((top :: rest).findIdx fun q => decide (q.2 < top.2 * minP))) 1 ≤ Sampling.topKAutoCap ↔
          t ≤ Sampling.topKAutoCap ∨
            (top :: rest).findIdx (fun q => decide (q.2 < top.2 * minP)) ≤ Sampling.topKAutoCap := by omega
      rw [hmin, hdrop]
      refine or_congr_right ⟨?_, ?_⟩
      · rintro ⟨w, hw, hlt⟩
        exact ⟨minP, w, top.2, rfl, hactive, hw, rfl, hlt⟩
      · rintro ⟨minP', w, v, h, -, hw, hv, hlt⟩
        cases h
        cases hv
        exact ⟨w, hw, hlt⟩
    · rw [if_neg hactive]
      refine ⟨fun h => .inl h, ?_⟩
      rintro (h | ⟨minP', w, v, h, hpos', -⟩)
      · exact h
      · cases h
        exact absurd hpos' hactive

end
end Flambeau.Runtime.Exact

namespace Flambeau.Runtime.Exact
open MeasureTheory

section
variable (U : UnstableDesc ℝ) (H : MapOrder) (mode : Sampling ℝ) {view : List ℝ}

/-- The entries that `build_distribution` keeps. -/
noncomputable def distKept (view : List ℝ) : List (Nat × ℝ) :=
  if mode.anyFilter then
    let sorted := U.sort (Sampling.truncated U mode.topK (mode.pairs Real.exp view))
    sorted.take (mode.cut sorted)
  else mode.pairs Real.exp view

theorem truncated_sublist (k : Option Nat) {pairs : List (Nat × ℝ)} (h : Weighted pairs) (hne : pairs ≠ [])
    (hk : ∀ n, k = some n → 0 < n) :
    Weighted (Sampling.truncated U k pairs) ∧ Sampling.truncated U k pairs ≠ [] := by
  unfold Sampling.truncated
  cases k with
  | none => exact ⟨h, hne⟩
  | some k =>
    have hpos := hk k rfl
    dsimp only
    split
    · rename_i hcut
      refine ⟨(h.perm (U.select_perm _ pairs)).sublist (List.take_sublist _ _), ?_⟩
      intro hnil
      have hlen := congrArg List.length hnil
      rw [List.length_take, (U.select_perm _ pairs).length_eq, List.length_nil] at hlen
      omega
    · exact ⟨h, hne⟩

theorem kept_weighted {pairs : List (Nat × ℝ)} (h : Weighted pairs) (hne : pairs ≠ []) :
    Weighted ((U.sort pairs).take (mode.cut (U.sort pairs))) ∧ (U.sort pairs).take (mode.cut (U.sort pairs)) ≠ [] := by
  have hsorted : U.sort pairs ≠ [] := by
    intro hnil
    have hperm := U.sort_perm pairs
    rw [hnil] at hperm
    exact hne hperm.symm.eq_nil
  refine ⟨(h.perm (U.sort_perm pairs)).sublist (List.take_sublist _ _), ?_⟩
  intro hnil
  have hcut := mode.cut_pos hsorted
  rcases List.take_eq_nil_iff.mp hnil with hzero | h
  · omega
  · exact hsorted h

theorem pairs_ne (hne : view ≠ []) : mode.pairs Real.exp view ≠ [] := by
  intro hnil
  have hlen := @pairs_length mode view Real.exp
  rw [hnil] at hlen
  exact hne (List.eq_nil_of_length_eq_zero hlen.symm)

theorem distKept_weighted (hne : view ≠ []) : Weighted (distKept U mode view) ∧ distKept U mode view ≠ [] := by
  unfold distKept
  split
  · obtain ⟨h, hne'⟩ := truncated_sublist U mode.topK (@pairs_weighted mode view) (pairs_ne mode hne) mode.topKPos
    exact kept_weighted U mode h hne'
  · exact ⟨pairs_weighted mode, pairs_ne mode hne⟩

theorem sampleKept_weighted (hne : view ≠ []) : Weighted (mode.sampleKept U (mode.pairs Real.exp view)) ∧
    mode.sampleKept U (mode.pairs Real.exp view) ≠ [] := by
  unfold Sampling.sampleKept
  split
  · have htop : ∀ k, mode.effectiveTopK = some k → 0 < k := by
      intro k hk
      unfold Sampling.effectiveTopK at hk
      split at hk
      · rename_i k' hk'
        cases hk
        exact mode.topKPos k hk'
      · split at hk
        · cases hk
          decide
        · cases hk
    obtain ⟨h, hne'⟩ := truncated_sublist U mode.effectiveTopK (@pairs_weighted mode view) (pairs_ne mode hne) htop
    exact kept_weighted U mode h hne'
  · exact ⟨pairs_weighted mode, pairs_ne mode hne⟩

/-- Without the cap the two pipelines are one. -/
theorem kept_uncapped (h : ¬ mode.Capped view.length) :
    mode.sampleKept U (mode.pairs Real.exp view) = distKept U mode view := by
  unfold Sampling.sampleKept distKept
  by_cases hfilter : mode.anyFilter = true
  · rw [if_pos hfilter, if_pos hfilter]
    have htruncated : Sampling.truncated U mode.effectiveTopK (mode.pairs Real.exp view) =
        Sampling.truncated U mode.topK (mode.pairs Real.exp view) := by
      unfold Sampling.effectiveTopK
      cases htop : mode.topK with
      | some k => rfl
      | none =>
        dsimp only
        split
        · have hsmall : ¬ Sampling.topKAutoCap < view.length := fun hlt => h ⟨htop, hfilter, hlt⟩
          unfold Sampling.truncated
          dsimp only
          rw [if_neg]
          rw [pairs_length]
          omega
        · rfl
    rw [htruncated]
  · rw [if_neg hfilter, if_neg hfilter]

/-- With the cap the sampler keeps no more than the largest 2048. -/
theorem kept_capped (hcap : mode.Capped view.length) (hdistinct : (Sampling.softmax Real.exp mode.invT view).Nodup) :
    mode.sampleKept U (mode.pairs Real.exp view) =
        (U.sort (mode.pairs Real.exp view)).take (min Sampling.topKAutoCap (mode.cut (U.sort (mode.pairs Real.exp view)))) ∧
      distKept U mode view = (U.sort (mode.pairs Real.exp view)).take (mode.cut (U.sort (mode.pairs Real.exp view))) := by
  obtain ⟨htop, hfilter, hvocab⟩ := hcap
  have heffective : mode.effectiveTopK = some Sampling.topKAutoCap := by
    unfold Sampling.effectiveTopK
    unfold Sampling.anyFilter at hfilter
    rw [htop, Option.isSome_none, Bool.false_or] at hfilter
    rw [htop]
    dsimp only
    rw [if_pos hfilter]
  have hlen := @pairs_length mode view Real.exp
  have hmin : min Sampling.topKAutoCap (mode.pairs Real.exp view).length = Sampling.topKAutoCap := by omega
  have htruncated : Sampling.truncated U (some Sampling.topKAutoCap) (mode.pairs Real.exp view) =
      (U.select Sampling.topKAutoCap (mode.pairs Real.exp view)).take Sampling.topKAutoCap := by
    unfold Sampling.truncated
    dsimp only
    rw [hmin, if_pos ⟨by decide, by omega⟩]
  have hselect := @sort_select U Sampling.topKAutoCap (mode.pairs Real.exp view)
    (by rw [pairs_snd]; exact hdistinct) (by omega)
  have hsorted : (U.sort (mode.pairs Real.exp view)).length = view.length := by
    rw [(U.sort_perm _).length_eq, hlen]
  unfold Sampling.sampleKept distKept
  rw [if_pos hfilter, if_pos hfilter, heffective, htruncated, htop]
  refine ⟨?_, rfl⟩
  dsimp only
  rw [hselect, mode.cut_take htop (by decide) (by omega), List.take_take]
  congr 1
  omega

theorem renormalised_eq {kept : List (Nat × ℝ)} (h : Weighted kept) (hne : kept ≠ []) : renormalised kept = scaled kept := by
  unfold renormalised
  rw [if_pos (h.mass_pos hne), scaled]

theorem build_eq (logits : List ℝ) (history : List Nat) (hgreedy : mode.isGreedy = false)
    (hne : mode.view logits history ≠ []) :
    buildDistribution U H Real.exp logits mode history = scaled (distKept U mode (mode.view logits history)) := by
  obtain ⟨hkept, hkeptne⟩ := distKept_weighted U mode hne
  unfold buildDistribution
  dsimp only
  rw [view_eq, hgreedy, if_neg Bool.false_ne_true]
  generalize hview : mode.view logits history = view at hne hkept hkeptne
  unfold distKept at hkept hkeptne ⊢
  by_cases hfilter : mode.anyFilter = true
  · rw [if_pos hfilter] at hkept hkeptne ⊢
    rw [hfilter, Bool.not_true, if_neg Bool.false_ne_true]
    exact renormalised_eq hkept hkeptne
  · rw [if_neg hfilter, eq_false_of_ne_true hfilter, Bool.not_false, if_pos rfl, scaled, pairs_mass mode hne]
    symm
    refine List.map_id'' ?_ _
    intro p
    rw [div_one]

theorem sample_eq (logits : List ℝ) (history : List Nat) (hgreedy : mode.isGreedy = false) :
    sample U Real.exp mode logits history =
      (multinomial · (mode.sampleKept U (mode.pairs Real.exp (mode.view logits history)))) := by
  funext x
  unfold sample
  dsimp only
  rw [hgreedy, if_neg Bool.false_ne_true]
  rfl

/-- No token can be reported where there is none. -/
theorem draws_empty {f : ℝ → Nat} : ¬ Draws f [] := by
  intro h
  exact List.not_mem_nil ((h.support (f 0)).mpr ⟨0, ⟨le_refl 0, zero_lt_one⟩, rfl⟩)

end

/-- With the cap, what the filters keep must come within it. -/
theorem draws_capped (U : UnstableDesc ℝ) (H : MapOrder) (mode : Sampling ℝ) (logits : List ℝ) (history : List Nat)
    (hgreedy : mode.isGreedy = false) (hcap : mode.Capped logits.length)
    (hdistinct : (mode.view logits history).Nodup) :
    Draws (sample U Real.exp mode logits history) (buildDistribution U H Real.exp logits mode history) ↔
      Fits mode (mode.view logits history) := by
  have hcapped : mode.Capped (mode.view logits history).length := by rwa [view_length]
  have hvocab := hcapped.2.2
  have hne : mode.view logits history ≠ [] := List.ne_nil_of_length_pos (by omega)
  obtain ⟨hdist, hdistne⟩ := distKept_weighted U mode hne
  obtain ⟨hsampled, hsampledne⟩ := sampleKept_weighted U mode hne
  obtain ⟨hsample, hbuild⟩ := kept_capped U mode hcapped (softmax_nodup (invT_pos mode hgreedy) hdistinct)
  rw [sample_eq U mode logits history hgreedy, build_eq U H mode logits history hgreedy hne, ← cut_fits U mode hcapped]
  constructor
  · intro hdraws
    have hsame := draws_length hsampled hdist hsampledne hdraws
    rw [hsample, hbuild, List.length_take, List.length_take, (U.sort_perm _).length_eq, pairs_length] at hsame
    omega
  · intro hle
    refine draws_of_perm hdist hdistne ?_
    rw [hsample, hbuild, Nat.min_eq_right hle]

/-- What the sampler draws is the distribution that is reported, just when there is a token, and the
sampler's cap, where it applies, leaves the filters what they need. -/
theorem distribution_drawn_iff (U : UnstableDesc ℝ) (H : MapOrder) (mode : Sampling ℝ) (logits : List ℝ)
    (history : List Nat) (hdistinct : mode.Capped logits.length → (mode.view logits history).Nodup) :
    Draws (sample U Real.exp mode logits history) (buildDistribution U H Real.exp logits mode history) ↔
      mode.isGreedy = true ∨
        logits ≠ [] ∧ (mode.Capped logits.length → Fits mode (mode.view logits history)) := by
  have hlen := view_length mode logits history
  by_cases hgreedy : mode.isGreedy = true
  · refine iff_of_true ?_ (.inl hgreedy)
    have hsample : sample U Real.exp mode logits history = fun _ => argmax (mode.view logits history) := by
      funext x
      unfold sample
      exact if_pos hgreedy
    have hbuild : buildDistribution U H Real.exp logits mode history = [(argmax (mode.view logits history), 1)] := by
      unfold buildDistribution
      dsimp only
      rw [view_eq, if_pos hgreedy]
    rw [hsample, hbuild]
    exact draws_const _
  have hgreedy := eq_false_of_ne_true hgreedy
  by_cases hempty : logits = []
  · refine iff_of_false ?_ ?_
    · have hview : mode.view logits history = [] := by
        apply List.eq_nil_of_length_eq_zero
        rw [hlen, hempty, List.length_nil]
      have hpairs : mode.pairs Real.exp [] = [] := by
        apply List.eq_nil_of_length_eq_zero
        rw [pairs_length, List.length_nil]
      have hsort : U.sort [] = [] := (U.sort_perm []).eq_nil
      have htruncated : Sampling.truncated U mode.topK [] = [] := by
        unfold Sampling.truncated
        cases mode.topK with
        | none => rfl
        | some k =>
          dsimp only
          rw [if_neg]
          rw [List.length_nil]
          omega
      have hbuild : buildDistribution U H Real.exp logits mode history = [] := by
        unfold buildDistribution
        dsimp only
        rw [view_eq, hview, hgreedy, if_neg Bool.false_ne_true, hpairs, htruncated, hsort]
        split
        · rfl
        · rw [List.take_nil]
          unfold renormalised
          split <;> rfl
      rw [hbuild]
      exact draws_empty
    · rintro (h | ⟨h, -⟩)
      · rw [hgreedy] at h
        cases h
      · exact h hempty
  have hne : mode.view logits history ≠ [] := by
    intro hnil
    rw [hnil] at hlen
    exact hempty (List.eq_nil_of_length_eq_zero hlen.symm)
  by_cases hcap : mode.Capped logits.length
  · rw [draws_capped U H mode logits history hgreedy hcap (hdistinct hcap), hgreedy]
    exact ⟨fun h => .inr ⟨hempty, fun _ => h⟩, fun h => (h.resolve_left nofun).2 hcap⟩
  · obtain ⟨hdist, hdistne⟩ := distKept_weighted U mode hne
    have hsame := @kept_uncapped U mode (mode.view logits history) (by rwa [hlen])
    refine iff_of_true ?_ (.inr ⟨hempty, fun h => absurd h hcap⟩)
    rw [sample_eq U mode logits history hgreedy, build_eq U H mode logits history hgreedy hne, hsame]
    exact draws_of_perm hdist hdistne (List.Perm.refl _)

/-- A stable sort is one of the orders that the unstable ones may leave. -/
noncomputable def stableDesc : UnstableDesc ℝ where
  select _ l := l.mergeSort fun a b => decide (b.2 ≤ a.2)
  sort l := l.mergeSort fun a b => decide (b.2 ≤ a.2)
  select_perm _ l := List.mergeSort_perm l _
  sort_perm l := List.mergeSort_perm l _
  select_spec k l a ha b hb := by
    have hsorted := @List.pairwise_mergeSort _ (fun a b : Nat × ℝ => decide (b.2 ≤ a.2))
      (fun _ _ _ hab hbc => decide_eq_true (le_trans (of_decide_eq_true hbc) (of_decide_eq_true hab)))
      (fun a b => by simpa using le_total b.2 a.2) l
    rw [← List.take_append_drop k (l.mergeSort _), List.pairwise_append] at hsorted
    exact of_decide_eq_true (hsorted.2.2 a ha b hb)
  sort_spec l := (@List.pairwise_mergeSort _ (fun a b : Nat × ℝ => decide (b.2 ≤ a.2))
    (fun _ _ _ hab hbc => decide_eq_true (le_trans (of_decide_eq_true hbc) (of_decide_eq_true hab)))
      (fun a b => by simpa using le_total b.2 a.2) l).imp fun h => of_decide_eq_true h

theorem unset_topK (k : Nat) (h : none = some k) : 0 < k := by
  cases h

/-- A temperature of one, no penalty, `min_p` alone. -/
noncomputable def plain (minP : Option ℝ) : Sampling ℝ where
  temperature := 1
  topP := none
  topK := none
  minP := minP
  repetitionPenalty := 1
  presencePenalty := 0
  frequencyPenalty := 0
  logitBias := none
  topKPos := unset_topK

theorem plain_view (minP : Option ℝ) (logits : List ℝ) : (plain minP).view logits [] = logits := by
  unfold Sampling.view Sampling.viewWith Sampling.applyLogitBias plain
  simp

theorem two_tokens_drawn : ∃ (U : UnstableDesc ℝ) (H : MapOrder),
    Draws (sample U Real.exp (plain none) [0, 1] []) (buildDistribution U H Real.exp [0, 1] (plain none) []) :=
  ⟨stableDesc, ⟨fun l => l, List.Perm.refl⟩,
    (distribution_drawn_iff stableDesc ⟨fun l => l, List.Perm.refl⟩ (plain none) [0, 1] [] (fun h => nomatch h.2.1)).mpr
      (.inr ⟨nofun, fun h => nomatch h.2.1⟩)⟩

/-- Logits that rise from zero to one. -/
noncomputable def ramp : List ℝ := (List.range 2049).map fun i : Nat => (i : ℝ) / 2049

theorem ramp_bounds (h : v ∈ ramp) : 0 ≤ v ∧ v ≤ 1 := by
  obtain ⟨i, hi, rfl⟩ := List.mem_map.mp h
  have hlt : (i : ℝ) ≤ 2049 := by exact_mod_cast Nat.le_of_lt (List.mem_range.mp hi)
  exact ⟨div_nonneg (Nat.cast_nonneg i) (by norm_num), (div_le_one (by norm_num)).mpr hlt⟩

theorem ramp_nodup : ramp.Nodup := by
  refine List.nodup_range.map ?_
  intro i j hij
  have hcast : (i : ℝ) = j := (div_left_inj' (by norm_num)).mp hij
  exact_mod_cast hcast

/-- No weight is below a quarter of the largest. -/
theorem ramp_close (hw : w ∈ largest (plain (some (1 / 4))) ramp) (ht : top ∈ largest (plain (some (1 / 4))) ramp) :
    top * (1 / 4) ≤ w := by
  have hinv : (plain (some (1 / 4))).invT = 1 := by
    unfold Sampling.invT plain
    norm_num
  have hne : ramp ≠ [] := List.ne_nil_of_length_pos (by unfold ramp; rw [List.length_map, List.length_range]; decide)
  have hweight : ∀ w ∈ largest (plain (some (1 / 4))) ramp, w ∈ Sampling.softmax Real.exp 1 ramp := by
    intro w hw
    unfold largest at hw
    rw [hinv] at hw
    exact (List.mergeSort_perm _ _).mem_iff.mp hw
  obtain ⟨d, hd, heq, -⟩ := softmax_eq 1 hne
  have hw := hweight w hw
  have ht := hweight top ht
  rw [heq, List.map_map] at hw ht
  obtain ⟨v, hv, rfl⟩ := List.mem_map.mp hw
  obtain ⟨v', hv', rfl⟩ := List.mem_map.mp ht
  obtain ⟨hlow, -⟩ := ramp_bounds hv
  obtain ⟨-, hhigh⟩ := ramp_bounds hv'
  generalize Sampling.maxScaled 1 ramp = m
  have hstep : Real.exp (v' * 1 - m) ≤ 4 * Real.exp (v * 1 - m) := by
    have hle : Real.exp (v' * 1 - m) ≤ Real.exp (1 + (v * 1 - m)) := Real.exp_le_exp.mpr (by linarith)
    rw [Real.exp_add] at hle
    have hone := Real.exp_one_lt_d9
    have hpos := Real.exp_pos (v * 1 - m)
    nlinarith
  change Real.exp (v' * 1 - m) / d * (1 / 4) ≤ Real.exp (v * 1 - m) / d
  rw [div_mul_eq_mul_div, div_le_div_iff_of_pos_right hd]
  linarith

/-- With `min_p` alone, of 2049 tokens that all pass it one is never drawn. -/
theorem cap_drops_token : ¬ ∀ (U : UnstableDesc ℝ) (H : MapOrder) (mode : Sampling ℝ) (logits : List ℝ) (history : List Nat),
    logits.Nodup →
    Draws (sample U Real.exp mode logits history) (buildDistribution U H Real.exp logits mode history) := by
  intro h
  have hview := plain_view (some (1 / 4)) ramp
  have hgreedy : (plain (some (1 / 4))).isGreedy = false := by
    unfold Sampling.isGreedy plain
    norm_num
  have hcap : (plain (some (1 / 4))).Capped ramp.length := by
    refine ⟨rfl, rfl, ?_⟩
    unfold ramp
    rw [List.length_map, List.length_range]
    decide
  have hdraws := h stableDesc ⟨fun l => l, List.Perm.refl⟩ (plain (some (1 / 4))) ramp [] ramp_nodup
  rw [draws_capped _ _ _ ramp [] hgreedy hcap (by rw [hview]; exact ramp_nodup), hview] at hdraws
  rcases hdraws with ⟨p, hp, -⟩ | ⟨minP, w, top, hminP, -, hw, htop, hlt⟩
  · cases hp
  · cases hminP
    have hle := ramp_close (List.mem_of_getElem? hw) (List.mem_of_head? htop)
    linarith

end Flambeau.Runtime.Exact
