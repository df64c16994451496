import Mathlib.Analysis.SpecialFunctions.Exp
import Mathlib.Analysis.Complex.ExponentialBounds
import Flambeau.Runtime.MultinomialPick

namespace Flambeau.Runtime.Exact
open MeasureTheory

/-! The counts of a history, in whatever order. -/

theorem eraseDups_nodup : ∀ l : List Nat, l.eraseDups.Nodup
  | [] => List.nodup_nil
  | a :: l => by
    rw [List.eraseDups_cons, List.nodup_cons]
    refine ⟨?_, eraseDups_nodup _⟩
    rw [List.mem_eraseDups, List.mem_filter]
    simp
termination_by l => l.length
decreasing_by
  rw [List.length_cons]
  exact Nat.lt_succ_of_le (List.length_filter_le _ _)

theorem counts_perm (H : MapOrder) (history : List Nat) :
    (Sampling.mapCounts H history).Perm (Runtime.Sampling.buildHistoryCounts history) := by
  refine (H.perm _).trans ((List.perm_ext_iff_of_nodup (eraseDups_nodup _) (eraseDups_nodup _)).mpr ?_ |>.map _)
  intro t
  rw [List.mem_eraseDups, List.mem_eraseDups, (List.mergeSort_perm history _).mem_iff]

theorem modify_comm {ls : List ℝ} {f g : ℝ → ℝ} (h : i ≠ j) :
    (ls.modify i f).modify j g = (ls.modify j g).modify i f := by
  apply List.ext_getElem?
  intro k
  simp only [List.getElem?_modify]
  by_cases hi : i = k
  · have hj : j ≠ k := fun hj => h (hi.trans hj.symm)
    simp [hi, hj]
  · by_cases hj : j = k <;> simp [hi, hj]

theorem penaltyKernel_perm (mode : Sampling ℝ) (logits : List ℝ) (history : List Nat)
    (hp : counts.Perm (Runtime.Sampling.buildHistoryCounts history)) :
    mode.penaltyKernel logits counts = mode.penaltyKernel logits (Runtime.Sampling.buildHistoryCounts history) := by
  refine (hp.symm.foldl_eq' ?_ logits).symm
  intro x hx y hy ls
  obtain ⟨t, -, rfl⟩ := List.mem_map.mp hx
  obtain ⟨t', -, rfl⟩ := List.mem_map.mp hy
  by_cases ht : t = t'
  · rw [ht]
  · exact modify_comm ht

/-- Both count the history alike. -/
theorem view_eq (mode : Sampling ℝ) (H : MapOrder) (logits : List ℝ) (history : List Nat) :
    mode.viewWith logits history (Sampling.mapCounts H history) = mode.view logits history := by
  unfold Sampling.view Sampling.viewWith
  rw [penaltyKernel_perm mode logits history (counts_perm H history)]

theorem modify_fold_length {β : Type} (i : β → Nat) (f : β → ℝ → ℝ) (xs : List β) (ls : List ℝ) :
    (xs.foldl (fun ls x => ls.modify (i x) (f x)) ls).length = ls.length := by
  induction xs generalizing ls with
  | nil => rfl
  | cons x xs ih => rw [List.foldl_cons, ih, List.length_modify]

theorem view_length (mode : Sampling ℝ) (logits : List ℝ) (history : List Nat) :
    (mode.view logits history).length = logits.length := by
  have hpenalized : (if mode.hasPenalties && !history.isEmpty then
      mode.penaltyKernel logits (Runtime.Sampling.buildHistoryCounts history) else logits).length = logits.length := by
    split
    · exact modify_fold_length (fun p : Nat × Nat => p.1) (fun p l => mode.penalize l p.2) _ logits
    · rfl
  unfold Sampling.view Sampling.viewWith Sampling.applyLogitBias
  cases mode.logitBias with
  | none => exact hpenalized
  | some bias => exact (modify_fold_length (fun p : Nat × ℝ => p.1) (fun p l => l + p.2) bias _).trans hpenalized

/-! The softmax. -/

theorem weights_sum_pos {exp : ℝ → ℝ} (hexp : ∀ q, 0 < exp q) {f : ℝ → ℝ} {logits : List ℝ} (hne : logits ≠ []) :
    0 < (logits.map fun v => exp (f v)).sum := by
  obtain ⟨v, vs, rfl⟩ := List.exists_cons_of_ne_nil hne
  have hrest : 0 ≤ (vs.map fun v => exp (f v)).sum := by
    refine List.sum_nonneg ?_
    intro w hw
    obtain ⟨v', -, rfl⟩ := List.mem_map.mp hw
    exact le_of_lt (hexp _)
  have hpos := hexp (f v)
  rw [List.map_cons, List.sum_cons]
  linarith


theorem sum_div (ws : List ℝ) (d : ℝ) : (ws.map (· / d)).sum = ws.sum / d := by
  induction ws with
  | nil => rw [List.map_nil, List.sum_nil, zero_div]
  | cons w ws ih => rw [List.map_cons, List.sum_cons, List.sum_cons, ih, add_div]

/-- Over exact numbers the weights are always normalised. -/
theorem softmax_eq (invT : ℝ) {logits : List ℝ} (hne : logits ≠ []) : ∃ d : ℝ, 0 < d ∧
    Sampling.softmax Real.exp invT logits =
      (logits.map fun v => Real.exp (v * invT - Sampling.maxScaled invT logits)).map (· / d) ∧
    d = (logits.map fun v => Real.exp (v * invT - Sampling.maxScaled invT logits)).sum := by
  have hpos := weights_sum_pos Real.exp_pos (f := fun v => v * invT - Sampling.maxScaled invT logits) hne
  refine ⟨_, hpos, ?_, rfl⟩
  unfold Sampling.softmax
  exact if_pos hpos

theorem softmax_pos (invT : ℝ) {logits : List ℝ} (hne : logits ≠ []) : ∀ w ∈ Sampling.softmax Real.exp invT logits, 0 < w := by
  obtain ⟨d, hd, heq, -⟩ := softmax_eq invT hne
  rw [heq]
  intro w hw
  obtain ⟨q, hq, rfl⟩ := List.mem_map.mp hw
  obtain ⟨v, -, rfl⟩ := List.mem_map.mp hq
  exact div_pos (Real.exp_pos _) hd

theorem softmax_sum (invT : ℝ) {logits : List ℝ} (hne : logits ≠ []) : (Sampling.softmax Real.exp invT logits).sum = 1 := by
  obtain ⟨d, hd, heq, hsum⟩ := softmax_eq invT hne
  rw [heq, sum_div, ← hsum, div_self (ne_of_gt hd)]

theorem softmax_nodup {invT : ℝ} (hinv : 0 < invT) {logits : List ℝ} (h : logits.Nodup) :
    (Sampling.softmax Real.exp invT logits).Nodup := by
  by_cases hne : logits = []
  · rw [hne]
    unfold Sampling.softmax
    simp
  obtain ⟨d, hd, heq, -⟩ := softmax_eq invT hne
  rw [heq, List.map_map]
  refine h.map ?_
  intro a b hab
  have hexp := (div_left_inj' (ne_of_gt hd)).mp hab
  have hlin := Real.exp_injective hexp
  have hmul : a * invT = b * invT := by linarith
  exact mul_right_cancel₀ (ne_of_gt hinv) hmul

theorem softmax_length (exp : ℝ → ℝ) (invT : ℝ) (logits : List ℝ) :
    (Sampling.softmax exp invT logits).length = logits.length := by
  unfold Sampling.softmax
  dsimp only
  split
  · rw [List.length_map, List.length_map]
  · rw [List.length_map]

section
variable (mode : Sampling ℝ) {view : List ℝ}

theorem pairs_snd (exp : ℝ → ℝ) : (mode.pairs exp view).map (·.2) = Sampling.softmax exp mode.invT view := by
  unfold Sampling.pairs
  rw [List.map_map]
  exact List.zipIdx_map_fst 0 _

theorem pairs_fst (exp : ℝ → ℝ) : (mode.pairs exp view).map (·.1) = List.range view.length := by
  unfold Sampling.pairs
  rw [List.map_map, List.range_eq_range', ← softmax_length exp mode.invT view]
  exact List.zipIdx_map_snd 0 _

theorem pairs_length (exp : ℝ → ℝ) : (mode.pairs exp view).length = view.length := by
  have h := congrArg List.length (@pairs_fst mode view exp)
  rwa [List.length_map, List.length_range] at h

theorem pairs_weighted : Weighted (mode.pairs Real.exp view) where
  ids := by
    rw [pairs_fst]
    exact List.nodup_range
  pos := by
    intro p hp
    have hne : view ≠ [] := by
      rintro rfl
      have hlen := List.length_pos_of_mem hp
      rw [pairs_length] at hlen
      exact Nat.lt_irrefl _ hlen
    refine softmax_pos mode.invT hne p.2 ?_
    rw [← pairs_snd]
    exact List.mem_map.mpr ⟨p, hp, rfl⟩

theorem pairs_mass (hne : view ≠ []) : mass (mode.pairs Real.exp view) = 1 := by
  rw [mass, pairs_snd, softmax_sum _ hne]

theorem invT_pos (h : mode.isGreedy = false) : 0 < mode.invT := by
  have hpos : ¬ mode.temperature ≤ 0 := by
    unfold Sampling.isGreedy at h
    exact of_decide_eq_false h
  unfold Sampling.invT
  rw [if_neg hpos]
  exact one_div_pos.mpr (lt_of_not_ge hpos)

end

/-! What a distribution says of a way to draw. -/

/-- The probability that is reported of a token. -/
noncomputable def reported (dist : List (Nat × ℝ)) (id : Nat) : ℝ := ((dist.find? fun p => p.1 == id).map (·.2)).getD 0

/-- Each token is drawn as often as it is reported, and what is reported is what can be drawn. -/
structure Draws (f : ℝ → Nat) (dist : List (Nat × ℝ)) : Prop where
  probability : ∀ id, volume (drawsOf f id) = ENNReal.ofReal (reported dist id)
  support : ∀ id, id ∈ dist.map (·.1) ↔ ∃ x : ℝ, (0 ≤ x ∧ x < 1) ∧ f x = id

theorem reported_of_mem {dist : List (Nat × ℝ)} (h : (dist.map (·.1)).Nodup) (hp : p ∈ dist) : reported dist p.1 = p.2 := by
  induction dist with
  | nil => cases hp
  | cons q dist ih =>
    obtain ⟨hnot, hrest⟩ := List.nodup_cons.mp h
    unfold reported
    rcases List.mem_cons.mp hp with rfl | hp
    · rw [List.find?_cons_of_pos (by simp)]
      rfl
    · have hne : ¬ (q.1 == p.1) = true := by
        rw [beq_iff_eq]
        intro heq
        exact hnot (List.mem_map.mpr ⟨p, hp, heq.symm⟩)
      rw [List.find?_cons_of_neg (by exact hne)]
      exact ih hrest hp

theorem reported_of_not_mem {dist : List (Nat × ℝ)} {id : Nat} (h : id ∉ dist.map (·.1)) : reported dist id = 0 := by
  have hnone : (dist.find? fun p => p.1 == id) = none := by
    rw [List.find?_eq_none]
    intro p hp heq
    exact h (List.mem_map.mpr ⟨p, hp, beq_iff_eq.mp heq⟩)
  rw [reported, hnone]
  rfl

theorem drawsOf_empty {f : ℝ → Nat} {id : Nat} (h : ¬ ∃ x : ℝ, (0 ≤ x ∧ x < 1) ∧ f x = id) : volume (drawsOf f id) = 0 := by
  have hempty : drawsOf f id = ∅ := by
    apply Set.eq_empty_of_forall_notMem
    intro x hx
    exact h ⟨x, hx⟩
  rw [hempty, measure_empty]

/-- One token for every draw. -/
theorem draws_const (t : Nat) : Draws (fun _ => t) [(t, 1)] where
  probability := by
    intro id
    by_cases hid : t = id
    · subst hid
      have hall : drawsOf (fun _ => t) t = Set.Ico 0 1 := by
        ext x
        exact ⟨fun h => h.1, fun h => ⟨h, rfl⟩⟩
      rw [hall, Real.volume_Ico, reported_of_mem (p := (t, 1)) (by simp) (by simp), sub_zero]
    · rw [drawsOf_empty (by rintro ⟨-, -, h⟩; exact hid h), reported_of_not_mem (by simpa using Ne.symm hid),
        ENNReal.ofReal_zero]
  support := by
    intro id
    constructor
    · intro h
      exact ⟨0, ⟨le_refl 0, zero_lt_one⟩, (List.mem_singleton.mp h).symm⟩
    · rintro ⟨-, -, rfl⟩
      exact List.mem_singleton_self _

noncomputable def scaled (kept : List (Nat × ℝ)) : List (Nat × ℝ) := kept.map fun p => (p.1, p.2 / mass kept)

theorem scaled_fst (kept : List (Nat × ℝ)) : (scaled kept).map (·.1) = kept.map (·.1) := by
  rw [scaled, List.map_map]
  rfl

/-- The pick and the distribution keep the same entries. -/
theorem draws_of_perm {sampled kept : List (Nat × ℝ)} (h : Weighted kept) (hne : kept ≠ []) (hperm : sampled.Perm kept) :
    Draws (multinomial · sampled) (scaled kept) := by
  have hsampled := h.perm hperm
  have hne' : sampled ≠ [] := by
    rintro rfl
    exact hne hperm.symm.eq_nil
  have hids : ∀ id, id ∈ (scaled kept).map (·.1) ↔ id ∈ sampled.map (·.1) := by
    intro id
    rw [scaled_fst]
    exact (hperm.map (·.1)).mem_iff.symm
  have hmass : mass sampled = mass kept := (hperm.map Prod.snd).sum_eq
  refine ⟨?_, fun id => (hids id).trans (multinomial_support hsampled hne' id)⟩
  intro id
  by_cases hid : id ∈ sampled.map (·.1)
  · obtain ⟨p, hp, rfl⟩ := List.mem_map.mp hid
    have hin : (p.1, p.2 / mass kept) ∈ scaled kept := List.mem_map.mpr ⟨p, hperm.mem_iff.mp hp, rfl⟩
    have hnodup : ((scaled kept).map (·.1)).Nodup := by
      rw [scaled_fst]
      exact h.ids
    rw [multinomial_volume hsampled hp, reported_of_mem hnodup hin, hmass]
  · rw [drawsOf_empty (fun hx => hid ((multinomial_support hsampled hne' id).mpr hx)),
      reported_of_not_mem (fun hx => hid ((hids id).mp hx)), ENNReal.ofReal_zero]

/-- Where the supports agree, as many entries are kept. -/
theorem draws_length {sampled kept : List (Nat × ℝ)} (hs : Weighted sampled) (hk : Weighted kept) (hne : sampled ≠ [])
    (h : Draws (multinomial · sampled) (scaled kept)) : sampled.length = kept.length := by
  have hsame : (sampled.map (·.1)).Perm (kept.map (·.1)) := by
    rw [List.perm_ext_iff_of_nodup hs.ids hk.ids]
    intro id
    rw [multinomial_support hs hne id, ← h.support id, scaled_fst]
  have hlen := hsame.length_eq
  rwa [List.length_map, List.length_map] at hlen

end Flambeau.Runtime.Exact
