import Flambeau.Server.DecodeLoop

namespace Flambeau.Server.DecodeLoop

variable {r : Request} {s : Slot}

/-! A stretch of the prompt. -/

/-- The prompt's tokens from `k` up to `j`. -/
def span (r : Request) (k j : Nat) : List Nat := (r.promptIds.take j).drop k

theorem span_length (hj : j ≤ r.promptIds.length) : (span r k j).length = j - k := by
  simp only [span, List.length_drop, List.length_take]
  omega

theorem span_take (u : Nat) : (span r k j).take u = span r k (min (k + u) j) := by
  unfold span
  rw [List.take_drop, List.take_take]

theorem span_drop (u : Nat) (hj : j ≤ r.promptIds.length) :
    (span r k j).drop u = span r (min (k + u) j) j := by
  unfold span
  rw [List.drop_drop]
  by_cases hu : k + u ≤ j
  · rw [Nat.min_eq_left hu]
  · rw [Nat.min_eq_right (by omega)]
    rw [List.drop_eq_nil_of_le, List.drop_eq_nil_of_le]
    · simp only [List.length_take]
      omega
    · simp only [List.length_take]
      omega

theorem take_span (hk : k ≤ j) : r.promptIds.take k ++ span r k j = r.promptIds.take j := by
  have hsplit := List.take_append_drop k (r.promptIds.take j)
  rw [List.take_take, Nat.min_eq_left hk] at hsplit
  exact hsplit

/-! What a prefill has done when it stands at `k`. -/

structure Filled (r : Request) (s : Slot) (k : Nat) : Prop where
  fed : s.fed = (r.promptIds.take k).zipIdx
  le : k ≤ r.promptIds.length
  rows : ∀ i, i < k → ∃ t, s.rows i = some ⟨r.id, t⟩
  reads : OwnReads r s

theorem filled_reset (r : Request) (s : Slot) : Filled r s.reset 0 := by
  refine ⟨by simp [Slot.reset], Nat.zero_le _, ?_, ?_⟩
  · intro i hi
    omega
  · intro row hrow
    cases hrow

theorem write_span (hs : Filled r s k) (hk : k ≤ j) (hj : j ≤ r.promptIds.length) (hi : i < j) :
    ∃ t, s.write r.id ((span r k j).zipIdx k) i = some ⟨r.id, t⟩ := by
  by_cases hlt : i < k
  · rw [write_before _ _ _ hlt]
    exact hs.rows i hlt
  · have hlen : i - k < (span r k j).length := by
      rw [span_length hj]
      omega
    have hget := List.getElem?_eq_getElem hlen
    have hinside := write_inside r.id s k hget
    have hidx : k + (i - k) = i := by omega
    rw [hidx] at hinside
    exact ⟨_, hinside⟩

theorem span_fed (hs : Filled r s k) (hk : k ≤ j) :
    s.fed ++ (span r k j).zipIdx k = (r.promptIds.take j).zipIdx := by
  have hlen : (r.promptIds.take k).length = k := by
    rw [List.length_take]
    exact Nat.min_eq_left hs.le
  rw [hs.fed, ← take_span hk, List.zipIdx_append, hlen, Nat.zero_add]

/-- Feeding the next stretch of the prompt at its own positions. -/
theorem filled_feed (hs : Filled r s k) (hk : k ≤ j) (hj : j ≤ r.promptIds.length) :
    Filled r (s.feed r.id r.window ((span r k j).zipIdx k)) j := by
  refine ⟨span_fed hs hk, hj, fun i hi => write_span hs hk hj hi, ?_⟩
  intro row hrow
  rcases List.mem_append.mp hrow with hrow | hrow
  · exact hs.reads row hrow
  · obtain ⟨q, hq, hrow⟩ := List.mem_flatMap.mp hrow
    obtain ⟨i, hi, rfl⟩ := List.mem_map.mp hrow
    have hle := attnRows_le hi
    have hlt := List.snd_lt_add_of_mem_zipIdx hq
    rw [span_length hj] at hlt
    exact write_span hs hk hj (by omega)

theorem filled_restore (hs : Filled r s 0) (hj : j ≤ r.promptIds.length) :
    Filled r (s.restore r.id ((r.promptIds.take j).zipIdx)) j := by
  have hspan : r.promptIds.take j = span r 0 j := by simp [span]
  have hfed := span_fed hs (Nat.zero_le j)
  refine ⟨?_, hj, ?_, hs.reads⟩
  · rw [← hspan] at hfed
    exact hfed
  · intro i hi
    rw [hspan]
    exact write_span hs (Nat.zero_le j) hj hi

/-- A prefill from `k` that stops at `j`, or at the forward that meets a fault. -/
def Prefilled (r : Request) (k j : Nat) : Except Slot Slot → Prop
  | .ok s => Filled r s j ∧ ∀ p, k ≤ p → p < j → r.fault p = false
  | .error s => (∃ i, Filled r s i) ∧ ∃ p, k ≤ p ∧ p < j ∧ r.fault p = true

theorem positions_any (start len : Nat) : (positions start len).any r.fault = true ↔
    ∃ p, start ≤ p ∧ p < start + len ∧ r.fault p = true := by
  simp only [positions, List.any_map, List.any_eq_true, List.mem_range, Function.comp_apply]
  constructor
  · intro h
    obtain ⟨k, hk, hf⟩ := h
    exact ⟨start + k, by omega, by omega, hf⟩
  · intro h
    obtain ⟨p, hle, hlt, hf⟩ := h
    refine ⟨p - start, by omega, ?_⟩
    have hp : start + (p - start) = p := by omega
    rw [hp]
    exact hf

theorem forward_prefilled (hs : Filled r s k) (hk : k ≤ j) (hj : j ≤ r.promptIds.length) :
    Prefilled r k j (r.forward s (span r k j) (positions k (span r k j).length)) := by
  have hlen := span_length (k := k) hj
  unfold Request.forward
  rw [zip_positions]
  split
  · rename_i hany
    obtain ⟨p, hle, hlt, hf⟩ := (positions_any _ _).mp hany
    exact ⟨⟨k, hs⟩, p, hle, by omega, hf⟩
  · rename_i hany
    refine ⟨filled_feed hs hk hj, ?_⟩
    intro p hle hlt
    cases hf : r.fault p with
    | false => rfl
    | true => exact absurd ((positions_any _ _).mpr ⟨p, hle, by omega, hf⟩) hany

/-- A stretch is prefilled run by run. -/
theorem prefilled_trans {res : Except Slot Slot} {f : Slot → Except Slot Slot} (hki : k ≤ i)
    (hij : i ≤ j) (hf : ∀ s, Filled r s i → Prefilled r i j (f s)) :
    Prefilled r k i res → Prefilled r k j (res.bind f) := by
  intro h
  cases res with
  | error s =>
    obtain ⟨hfill, p, hle, hlt, hp⟩ := h
    exact ⟨hfill, p, hle, by omega, hp⟩
  | ok s =>
    obtain ⟨hfill, hclear⟩ := h
    have hnext := hf s hfill
    simp only [Except.bind]
    cases hres : f s with
    | error s' =>
      rw [hres] at hnext
      obtain ⟨hfill', p, hle, hlt, hp⟩ := hnext
      exact ⟨hfill', p, by omega, hlt, hp⟩
    | ok s' =>
      rw [hres] at hnext
      obtain ⟨hfill', hclear'⟩ := hnext
      refine ⟨hfill', ?_⟩
      intro p hle hlt
      by_cases hp : p < i
      · exact hclear p hle hp
      · exact hclear' p (by omega) hlt

theorem forwardPrefill_step (r : Request) (s : Slot) (pos : Nat) (h : tokens ≠ []) :
    r.forwardPrefill s tokens pos =
      (r.forward s (tokens.take r.prefillUbatch)
        (positions pos (tokens.take r.prefillUbatch).length)).bind fun s =>
          r.forwardPrefill s (tokens.drop r.prefillUbatch)
            (pos + (tokens.take r.prefillUbatch).length) := by
  rw [Request.forwardPrefill, dif_neg h]
  simp only
  cases r.forward s (tokens.take r.prefillUbatch)
    (positions pos (tokens.take r.prefillUbatch).length) <;> rfl

theorem prefillChunks_step (r : Request) (s : Slot) (h : start < r.promptIds.length) :
    r.prefillChunks s start =
      (if r.mixes start then
          r.forwardMixed s (span r start (r.cfg.chunkEnd start r.promptIds.length)) start
        else
          r.forwardPrefill s (span r start (r.cfg.chunkEnd start r.promptIds.length)) start).bind
        fun s => r.prefillChunks s (r.cfg.chunkEnd start r.promptIds.length) := by
  rw [Request.prefillChunks, if_pos h]
  simp only [span]
  split <;> rename_i hres
  · rw [hres]
    rfl
  · rw [hres]
    rfl

theorem forwardPrefill_prefilled (r : Request) (s : Slot) (k j : Nat) (hs : Filled r s k)
    (hk : k ≤ j) (hj : j ≤ r.promptIds.length) :
    Prefilled r k j (r.forwardPrefill s (span r k j) k) := by
  have hlen := span_length (k := k) hj
  by_cases hnil : span r k j = []
  · rw [Request.forwardPrefill, dif_pos hnil]
    have hkj : k = j := by
      rw [hnil] at hlen
      simp only [List.length_nil] at hlen
      omega
    subst hkj
    refine ⟨hs, ?_⟩
    intro p hle hlt
    omega
  · rw [forwardPrefill_step r s k hnil]
    have hpos := r.ubatch_pos
    have hne : k < j := by
      have hl := List.length_pos_iff.mpr hnil
      omega
    have hi : min (k + r.prefillUbatch) j ≤ r.promptIds.length := by omega
    have hclen : (span r k (min (k + r.prefillUbatch) j)).length =
        min (k + r.prefillUbatch) j - k := span_length hi
    have hnext : k + (span r k (min (k + r.prefillUbatch) j)).length =
        min (k + r.prefillUbatch) j := by omega
    rw [span_take, span_drop _ hj, hnext]
    have hrest : ∀ s', Filled r s' (min (k + r.prefillUbatch) j) →
        Prefilled r (min (k + r.prefillUbatch) j) j
          (r.forwardPrefill s' (span r (min (k + r.prefillUbatch) j) j)
            (min (k + r.prefillUbatch) j)) := by
      intro s' hs'
      exact forwardPrefill_prefilled r s' _ j hs' (by omega) hj
    exact prefilled_trans (by omega) (by omega) hrest (forward_prefilled hs (by omega) hi)
termination_by j - k

theorem prefillChunks_prefilled (r : Request) (s : Slot) (start : Nat) (hs : Filled r s start) :
    Prefilled r start r.promptIds.length (r.prefillChunks s start) := by
  by_cases hlt : start < r.promptIds.length
  · rw [prefillChunks_step r s hlt]
    have hle : start ≤ r.cfg.chunkEnd start r.promptIds.length := by
      simp only [Scheduler.Config.chunkEnd]
      omega
    have hgt : start < r.cfg.chunkEnd start r.promptIds.length := by
      simp only [Scheduler.Config.chunkEnd, Scheduler.Config.prefillChunk]
      omega
    have hend : r.cfg.chunkEnd start r.promptIds.length ≤ r.promptIds.length := by
      simp only [Scheduler.Config.chunkEnd]
      omega
    have hrest : ∀ s', Filled r s' (r.cfg.chunkEnd start r.promptIds.length) →
        Prefilled r (r.cfg.chunkEnd start r.promptIds.length) r.promptIds.length
          (r.prefillChunks s' (r.cfg.chunkEnd start r.promptIds.length)) := by
      intro s' hs'
      exact prefillChunks_prefilled r s' _ hs'
    have hchunk : Prefilled r start (r.cfg.chunkEnd start r.promptIds.length)
        (if r.mixes start = true then
          r.forwardMixed s (span r start (r.cfg.chunkEnd start r.promptIds.length)) start
        else r.forwardPrefill s (span r start (r.cfg.chunkEnd start r.promptIds.length)) start) := by
      split
      · exact forward_prefilled hs hle hend
      · exact forwardPrefill_prefilled r s _ _ hs hle hend
    exact prefilled_trans hle hend hrest hchunk
  · rw [Request.prefillChunks, if_neg hlt]
    have heq : start = r.promptIds.length := by
      have := hs.le
      omega
    subst heq
    refine ⟨hs, ?_⟩
    intro p hle hlt
    omega
termination_by r.promptIds.length - start

/-! The whole prefill. -/

/-- Where the prompt is prefilled from; `none` where the slot cannot be set up. -/
def resumesAt (r : Request) : Option Nat :=
  if r.resets then
    match r.usable with
    | none => some 0
    | some (m, _) => if m.restores then some m.nTokens else if m.resets then some 0 else none
  else none

theorem usable_match (h : r.usable = some (m, full)) :
    m.nTokens ≤ r.promptIds.length ∧ full = decide (m.nTokens = r.promptIds.length) := by
  unfold Request.usable at h
  split at h
  · cases h
  · simp only at h
    split at h
    · cases h
    · rename_i hfit
      split at h
      · cases h
        refine ⟨?_, rfl⟩
        apply Nat.le_of_not_lt
        intro hlt
        exact hfit (.inr hlt)
      · cases h

/-- Reset, restore and prefill: the whole prompt at its own positions, or what a
fault leaves of it. -/
theorem chunkedPrefill_prefilled (r : Request) (s : Slot) :
    match resumesAt r with
    | some start => Prefilled r start r.promptIds.length (r.chunkedPrefill s)
    | none => ∃ s', r.chunkedPrefill s = .error s' ∧ Filled r s' 0 := by
  have hreset := filled_reset r s
  cases hr : r.resets with
  | false =>
    have hat : resumesAt r = none := by simp [resumesAt, hr]
    rw [hat]
    exact ⟨s.reset, by simp [Request.chunkedPrefill, hr], hreset⟩
  | true =>
    cases hu : r.usable with
    | none =>
      have hat : resumesAt r = some 0 := by simp [resumesAt, hr, hu]
      have hrun : r.chunkedPrefill s = r.prefillChunks s.reset 0 := by
        simp [Request.chunkedPrefill, Request.tryRestore, hr, hu]
      rw [hat, hrun]
      exact prefillChunks_prefilled r _ 0 hreset
    | some mf =>
      obtain ⟨m, full⟩ := mf
      obtain ⟨hle, hfull⟩ := usable_match hu
      cases hm : m.restores with
      | true =>
        have hat : resumesAt r = some m.nTokens := by simp [resumesAt, hr, hu, hm]
        have hrestored := filled_restore hreset hle
        rw [hat]
        cases hf : full with
        | true =>
          have hlen : m.nTokens = r.promptIds.length := by
            rw [hfull] at hf
            exact of_decide_eq_true hf
          have hrun : r.chunkedPrefill s =
              .ok (s.reset.restore r.id ((r.promptIds.take m.nTokens).zipIdx)) := by
            simp [Request.chunkedPrefill, Request.tryRestore, hr, hu, hm, hf]
          rw [hrun]
          rw [hlen] at hrestored ⊢
          refine ⟨hrestored, ?_⟩
          intro p hp hlt
          omega
        | false =>
          have hrun : r.chunkedPrefill s = r.prefillChunks
              (s.reset.restore r.id ((r.promptIds.take m.nTokens).zipIdx)) m.nTokens := by
            simp [Request.chunkedPrefill, Request.tryRestore, hr, hu, hm, hf]
          rw [hrun]
          exact prefillChunks_prefilled r _ _ hrestored
      | false =>
        cases hres : m.resets with
        | true =>
          have hat : resumesAt r = some 0 := by simp [resumesAt, hr, hu, hm, hres]
          have hrun : r.chunkedPrefill s = r.prefillChunks s.reset.reset 0 := by
            simp [Request.chunkedPrefill, Request.tryRestore, hr, hu, hm, hres]
          rw [hat, hrun]
          exact prefillChunks_prefilled r _ 0 (filled_reset r s.reset)
        | false =>
          have hat : resumesAt r = none := by simp [resumesAt, hr, hu, hm, hres]
          rw [hat]
          refine ⟨s.reset, ?_, hreset⟩
          simp [Request.chunkedPrefill, Request.tryRestore, hr, hu, hm, hres]

/-! The decode loops. -/

theorem due_prompt (h : r.promptIds[i]? = some t) : due r i = t := by
  simp [due, h]

theorem filled_contiguous (hs : Filled r s k) : Contiguous r s := by
  intro i p hp
  rw [hs.fed, List.getElem?_zipIdx, Option.map_eq_some_iff] at hp
  obtain ⟨t, ht, rfl⟩ := hp
  rw [List.getElem?_take] at ht
  split at ht
  · rw [due_prompt ht, Nat.zero_add]
  · cases ht

/-- The loop only adds to what was fed. -/
theorem decodeLoop_fed (r : Request) (after : Nat → Request.After) (s : Slot) (step last : Nat) :
    ∃ more, (finalSlot (r.decodeLoop after s step last)).fed = s.fed ++ more := by
  rw [Request.decodeLoop]
  by_cases hlt : step < r.maxTokens
  · rw [if_pos hlt]
    unfold Request.forward
    by_cases hany : [r.promptIds.length + step].any r.fault = true
    · rw [if_pos hany]
      exact ⟨[], by simp [finalSlot]⟩
    · rw [if_neg hany]
      simp only
      cases after step with
      | go =>
        obtain ⟨more, hmore⟩ := decodeLoop_fed r after
          (s.feed r.id r.window ([last].zip [r.promptIds.length + step])) (step + 1) (r.sample step)
        refine ⟨[last].zip [r.promptIds.length + step] ++ more, ?_⟩
        rw [hmore, ← List.append_assoc]
        rfl
      | stop => exact ⟨_, rfl⟩
      | fail => exact ⟨_, rfl⟩
  · rw [if_neg hlt]
    exact ⟨[], by simp [finalSlot]⟩
termination_by r.maxTokens - step

/-- The first decode step leaves a gap at the prompt's length. -/
theorem decodeLoop_gap (r : Request) (after : Nat → Request.After)
    (hs : Filled r s r.promptIds.length) (hmax : 1 < r.maxTokens)
    (hfault : r.fault (r.promptIds.length + 1) = false) :
    ¬ Contiguous r (finalSlot (r.decodeLoop after s 1 (r.sample 0))) := by
  have hfirst : ∃ more, (finalSlot (r.decodeLoop after s 1 (r.sample 0))).fed =
      s.fed ++ (r.sample 0, r.promptIds.length + 1) :: more := by
    rw [Request.decodeLoop, if_pos hmax]
    have hany : ¬ [r.promptIds.length + 1].any r.fault = true := by simp [hfault]
    unfold Request.forward
    rw [if_neg hany]
    simp only
    cases after 1 with
    | go =>
      obtain ⟨more, hmore⟩ := decodeLoop_fed r after
        (s.feed r.id r.window ([r.sample 0].zip [r.promptIds.length + 1])) 2 (r.sample 1)
      refine ⟨more, ?_⟩
      rw [hmore]
      simp [Slot.feed]
    | stop => exact ⟨[], rfl⟩
    | fail => exact ⟨[], rfl⟩
  obtain ⟨more, hfed⟩ := hfirst
  have hlen : s.fed.length = r.promptIds.length := by
    rw [hs.fed]
    simp
  intro hc
  have hat : (finalSlot (r.decodeLoop after s 1 (r.sample 0))).fed[r.promptIds.length]? =
      some (r.sample 0, r.promptIds.length + 1) := by
    rw [hfed, ← hlen, List.getElem?_append_right (Nat.le_refl _), Nat.sub_self]
    rfl
  have hpair := hc _ _ hat
  have hpos : r.promptIds.length + 1 = r.promptIds.length := congrArg Prod.snd hpair
  omega

/-- The request gets as far as a decode forward: the slot is set up, no fault
meets the prompt or the first decode, the first token goes on, and a second one
is wanted. -/
def Decodes (loop : Loop) (r : Request) : Prop :=
  r.promptIds ≠ [] ∧
  (∃ start, resumesAt r = some start ∧
    ∀ p, start ≤ p → p < r.promptIds.length → r.fault p = false) ∧
  loop.first r = .go ∧ 1 < r.maxTokens ∧ r.fault (r.promptIds.length + 1) = false

theorem decodeLoop_idle (r : Request) (after : Nat → Request.After) (last : Nat)
    (h : ¬ (1 < r.maxTokens ∧ r.fault (r.promptIds.length + 1) = false)) :
    finalSlot (r.decodeLoop after s 1 last) = s := by
  rw [Request.decodeLoop]
  by_cases hmax : 1 < r.maxTokens
  · have hany : [r.promptIds.length + 1].any r.fault = true := by
      cases hf : r.fault (r.promptIds.length + 1) with
      | true => simp [hf]
      | false => exact absurd ⟨hmax, hf⟩ h
    unfold Request.forward
    rw [if_pos hmax, if_pos hany]
    rfl
  · rw [if_neg hmax]
    rfl

/-- A prefill that fails leaves what it had fed. -/
theorem chunkedPrefill_filled (r : Request) (s : Slot) :
    ∃ k, Filled r (finalSlot (r.chunkedPrefill s)) k := by
  have hpre := chunkedPrefill_prefilled r s
  cases hat : resumesAt r with
  | none =>
    rw [hat] at hpre
    obtain ⟨s', hs', hfill⟩ := hpre
    rw [hs']
    exact ⟨0, hfill⟩
  | some start =>
    rw [hat] at hpre
    cases hres : r.chunkedPrefill s with
    | ok s' =>
      rw [hres] at hpre
      exact ⟨_, hpre.1⟩
    | error s' =>
      rw [hres] at hpre
      exact hpre.1

theorem chunkedPrefill_ok (r : Request) (s : Slot) (h : r.chunkedPrefill s = .ok s') :
    Filled r s' r.promptIds.length ∧ ∃ start, resumesAt r = some start ∧
      ∀ p, start ≤ p → p < r.promptIds.length → r.fault p = false := by
  have hpre := chunkedPrefill_prefilled r s
  cases hat : resumesAt r with
  | none =>
    rw [hat] at hpre
    obtain ⟨s'', hs'', _⟩ := hpre
    rw [h] at hs''
    cases hs''
  | some start =>
    rw [hat, h] at hpre
    exact ⟨hpre.1, start, rfl, hpre.2⟩

theorem chunkedPrefill_clear (r : Request) (s : Slot) (hat : resumesAt r = some start)
    (hclear : ∀ p, start ≤ p → p < r.promptIds.length → r.fault p = false) :
    ∃ s', r.chunkedPrefill s = .ok s' := by
  have hpre := chunkedPrefill_prefilled r s
  rw [hat] at hpre
  cases hres : r.chunkedPrefill s with
  | ok s' => exact ⟨s', rfl⟩
  | error s' =>
    rw [hres] at hpre
    obtain ⟨_, p, hle, hlt, hp⟩ := hpre
    rw [hclear p hle hlt] at hp
    cases hp

/-- Without a decode forward the request only prefills. -/
theorem idle_filled (loop : Loop) (r : Request) (rows : Nat → Option Row)
    (h : ¬ Decodes loop r) : ∃ k, Filled r (runCompletion loop r ⟨rows, [], []⟩) k := by
  unfold runCompletion Request.complete
  by_cases hprompt : r.promptIds.isEmpty = true
  · rw [if_pos hprompt]
    exact ⟨0, filled_reset r ⟨rows, [], []⟩⟩
  · rw [if_neg hprompt]
    have hfill := chunkedPrefill_filled r ⟨rows, [], []⟩
    cases hres : r.chunkedPrefill ⟨rows, [], []⟩ with
    | error s =>
      rw [hres] at hfill
      exact hfill
    | ok s =>
      rw [hres] at hfill
      obtain ⟨_, hclear⟩ := chunkedPrefill_ok r _ hres
      cases hfirst : loop.first r with
      | stop => exact hfill
      | fail => exact hfill
      | go =>
        have hne : r.promptIds ≠ [] := by
          intro hnil
          rw [hnil] at hprompt
          exact hprompt rfl
        have hidle : ¬ (1 < r.maxTokens ∧ r.fault (r.promptIds.length + 1) = false) := by
          intro hgo
          exact h ⟨hne, hclear, hfirst, hgo.1, hgo.2⟩
        simp only
        rw [decodeLoop_idle r _ _ hidle]
        exact hfill

/-- With one, the prompt is whole and the decode loop starts at its gap. -/
theorem decodes_gap (loop : Loop) (r : Request) (rows : Nat → Option Row) (h : Decodes loop r) :
    ¬ Contiguous r (runCompletion loop r ⟨rows, [], []⟩) := by
  obtain ⟨hne, ⟨start, hat, hclear⟩, hfirst, hmax, hfault⟩ := h
  obtain ⟨s, hs⟩ := chunkedPrefill_clear r ⟨rows, [], []⟩ hat hclear
  have hfill := (chunkedPrefill_ok r _ hs).1
  have hprompt : r.promptIds.isEmpty = false := by
    cases hids : r.promptIds with
    | nil => exact absurd hids hne
    | cons t ts => rfl
  have hrun : runCompletion loop r ⟨rows, [], []⟩ =
      finalSlot (r.decodeLoop (loop.after r) s 1 (r.sample 0)) := by
    simp [runCompletion, Request.complete, hprompt, hs, hfirst]
  rw [hrun]
  exact decodeLoop_gap r _ hfill hmax hfault

/-- A request feeds its slot contiguously, and its attention reads no row of
another request, exactly when it issues no decode forward. -/
theorem contiguous_iff (loop : Loop) (r : Request) (rows : Nat → Option Row) :
    (Contiguous r (runCompletion loop r ⟨rows, [], []⟩) ∧
        OwnReads r (runCompletion loop r ⟨rows, [], []⟩)) ↔ ¬ Decodes loop r := by
  constructor
  · intro hmeets hdec
    exact decodes_gap loop r rows hdec hmeets.1
  · intro hidle
    obtain ⟨k, hfill⟩ := idle_filled loop r rows hidle
    exact ⟨filled_contiguous hfill, hfill.reads⟩

/-- One prompt token, two tokens wanted, nothing cached and no faults. -/
def shortRequest : Request where
  id := 1
  promptIds := [5]
  maxTokens := 2
  cfg := ⟨4, false⟩
  prefillUbatch := 4
  ubatch_pos := by decide
  window := 0
  resets := true
  cached := none
  drained := fun _ => 0
  fault := fun _ => false
  sample := fun _ => 7
  isStop := fun _ => false
  jsonComplete := fun _ => false
  stopText := fun _ => false
  emit := fun _ => some true

/-- Every row holds what request 0 left there. -/
def leftover : Nat → Option Row := fun p => some ⟨0, p⟩

theorem short_prefill :
    shortRequest.chunkedPrefill ⟨leftover, [], []⟩ =
      .ok ((Slot.mk leftover [] []).feed 1 0 [(5, 0)]) := by
  simp [Request.chunkedPrefill, Request.tryRestore, Request.usable, Request.prefillChunks,
    Request.mixes, Request.forwardPrefill, Request.forward, Slot.reset, positions, shortRequest,
    Scheduler.Config.chunkEnd, Scheduler.Config.prefillChunk]

theorem short_run :
    runCompletion .scheduler shortRequest ⟨leftover, [], []⟩ =
      ((Slot.mk leftover [] []).feed 1 0 [(5, 0)]).feed 1 0 [(7, 2)] := by
  unfold runCompletion Request.complete
  rw [short_prefill]
  simp [Loop.first, Loop.after, Request.schedulerAfter, Request.decodeLoop, Request.forward,
    finalSlot, shortRequest]

/-- The generated token goes to position 2, past row 1, and attention reads there
what request 0 left. -/
theorem second_token_skips_a_row :
    (runCompletion .scheduler shortRequest ⟨leftover, [], []⟩).fed = [(5, 0), (7, 2)] ∧
      some ⟨0, 1⟩ ∈ (runCompletion .scheduler shortRequest ⟨leftover, [], []⟩).read ∧
      ¬ (Contiguous shortRequest (runCompletion .scheduler shortRequest ⟨leftover, [], []⟩) ∧
        OwnReads shortRequest (runCompletion .scheduler shortRequest ⟨leftover, [], []⟩)) := by
  rw [short_run]
  have hread : some ⟨0, 1⟩ ∈ (((Slot.mk leftover [] []).feed 1 0 [(5, 0)]).feed 1 0 [(7, 2)]).read := by
    simp [Slot.feed, Slot.write, attnRows, leftover, List.range_succ]
  refine ⟨rfl, hread, ?_⟩
  intro hmeets
  obtain ⟨t, ht⟩ := hmeets.2 _ hread
  cases ht

end Flambeau.Server.DecodeLoop
