import Flambeau.Runtime.Sampling

namespace Flambeau.Runtime

namespace F32

theorem lt_asymm {a b : F32} (h : a.lt b = true) : b.lt a = false := by
  cases a <;> cases b <;> simp_all [lt]
  grind

/-- Not below is transitive over the numbers. -/
theorem lt_false_trans {a b c : F32} (ha : a ≠ .nan) (hb : b ≠ .nan) (hab : a.lt b = false)
    (hbc : b.lt c = false) : a.lt c = false := by
  cases a <;> cases b <;> cases c <;> simp_all [lt]
  grind

theorem sum_fin (qs : List Rat) : sum (qs.map .fin) = .fin qs.sum := by
  have hfold : ∀ acc : Rat, (qs.map F32.fin).foldl add (.fin acc) = .fin (acc + qs.sum) := by
    induction qs with
    | nil =>
      intro acc
      simp [Rat.add_zero]
    | cons q qs ih =>
      intro acc
      simp only [List.map_cons, List.foldl_cons, List.sum_cons]
      rw [show add (.fin acc) (.fin q) = .fin (acc + q) from rfl, ih, Rat.add_assoc]
  rw [sum, hfold 0, Rat.zero_add]

/-- A finite value's number. -/
def toRat : F32 → Rat
  | .fin q => q
  | _ => 0

end F32

/-- Each entry has a weight; it is above zero only where the logit is above minus
infinity. -/
def Weighs (view : List F32) (pairs : List (Nat × F32)) : Prop :=
  ∀ p ∈ pairs, ∃ q : Rat, p.2 = .fin q ∧ 0 ≤ q ∧ (0 < q → ∃ a, view[p.1]? = some (.fin a))

/-- Some entry has a weight above zero. -/
def Heavy (pairs : List (Nat × F32)) : Prop := ∃ p ∈ pairs, ∃ q : Rat, p.2 = .fin q ∧ 0 < q

theorem Weighs.sublist (h : Weighs view pairs) (hsub : ∀ p ∈ kept, p ∈ pairs) : Weighs view kept :=
  fun p hp => h p (hsub p hp)

theorem Weighs.not_nan (h : Weighs view pairs) : ∀ p ∈ pairs, p.2 ≠ .nan := by
  intro p hp hnan
  obtain ⟨q, hq, -⟩ := h p hp
  rw [hq] at hnan
  cases hnan

def mass (pairs : List (Nat × F32)) : Rat := (pairs.map fun p => p.2.toRat).sum

theorem weighs_sum (h : Weighs view pairs) : F32.sum (pairs.map (·.2)) = .fin (mass pairs) := by
  have hmap : pairs.map (·.2) = (pairs.map fun p => p.2.toRat).map .fin := by
    rw [List.map_map]
    apply List.map_congr_left
    intro p hp
    obtain ⟨q, hq, -⟩ := h p hp
    simp [hq, F32.toRat]
  rw [hmap, F32.sum_fin, mass]

theorem mass_cons (p : Nat × F32) (pairs : List (Nat × F32)) :
    mass (p :: pairs) = p.2.toRat + mass pairs := by
  rw [mass, List.map_cons, List.sum_cons, mass]

theorem mass_nonneg (h : Weighs view pairs) : 0 ≤ mass pairs := by
  induction pairs with
  | nil => exact Rat.le_refl
  | cons p pairs ih =>
    obtain ⟨q, hq, hnonneg, -⟩ := h p List.mem_cons_self
    rw [mass_cons, hq]
    exact Rat.add_nonneg hnonneg (ih (h.sublist fun _ hp => List.mem_cons_of_mem _ hp))

theorem le_mass (h : Weighs view pairs) (hp : p ∈ pairs) : p.2.toRat ≤ mass pairs := by
  induction pairs with
  | nil => cases hp
  | cons p' pairs ih =>
    have htail := h.sublist fun _ hp => List.mem_cons_of_mem p' hp
    obtain ⟨q, hq, hnonneg, -⟩ := h p' List.mem_cons_self
    have hmass := mass_nonneg htail
    rw [mass_cons]
    rcases List.mem_cons.mp hp with rfl | hp
    · grind
    · have hle := ih htail hp
      rw [hq, F32.toRat]
      grind

theorem heavy_mass (h : Weighs view pairs) (hheavy : Heavy pairs) : 0 < mass pairs := by
  obtain ⟨p, hp, q, hq, hpos⟩ := hheavy
  have hle := le_mass h hp
  rw [hq, F32.toRat] at hle
  grind

/-- The pick lands on a weight above zero, where `u` is above zero and within the
sum. -/
theorem pick_positive (h : Weighs view kept) (hpos : 0 < u) (hle : u ≤ mass kept) :
    ∃ id a, pick (.fin u) kept = some id ∧ view[id]? = some (.fin a) := by
  induction kept generalizing u with
  | nil =>
    have hzero : mass [] = 0 := rfl
    grind
  | cons p kept ih =>
    obtain ⟨id₀, w⟩ := p
    obtain ⟨q, rfl, hnonneg, habove⟩ := h _ List.mem_cons_self
    rw [mass_cons, F32.toRat] at hle
    have hsub : F32.sub (.fin u) (.fin q) = .fin (u + -q) := rfl
    have hstop : F32.le (.fin (u + -q)) (.fin 0) = !decide (0 < u + -q) := rfl
    rw [pick, hsub, hstop]
    by_cases hover : 0 < u + -q
    · obtain ⟨id, a, hpick, hid⟩ := ih (h.sublist fun _ hp => List.mem_cons_of_mem _ hp)
        hover (by grind)
      exact ⟨id, a, by simp [hover, hpick], hid⟩
    · obtain ⟨a, ha⟩ := habove (by grind)
      exact ⟨id₀, a, by simp [hover], ha⟩

/-- Where `u` is zero the first entry is picked. -/
theorem pick_first {id : Nat} {kept : List (Nat × F32)} (hq : 0 ≤ q) :
    pick (.fin 0) ((id, .fin q) :: kept) = some id := by
  have hsub : F32.sub (.fin 0) (.fin q) = .fin (0 + -q) := rfl
  have hstop : F32.le (.fin (0 + -q)) (.fin 0) = !decide (0 < 0 + -q) := rfl
  have hover : ¬ 0 < 0 + -q := by grind
  rw [pick, hsub, hstop, decide_eq_false hover]
  rfl

/-- The pick over entries of which one is above zero, where the draw is not zero
or the first entry's logit is above minus infinity. -/
theorem pick_kept (h : Weighs view kept) (hheavy : Heavy kept) (hr : 0 ≤ r) (hr' : r < 1)
    (hfirst : 0 < r ∨ ∃ p rest a, kept = p :: rest ∧ view[p.1]? = some (.fin a)) :
    ∃ a, view[multinomial r kept]? = some (.fin a) := by
  have hmass := heavy_mass h hheavy
  have hu : F32.mul (.fin r) (F32.sum (kept.map (·.2))) = .fin (r * mass kept) := by
    rw [weighs_sum h]
    rfl
  unfold multinomial
  rw [hu]
  by_cases hzero : 0 < r
  · have hmul := Rat.mul_le_mul_of_nonneg_right (Rat.le_of_lt hr') (Rat.le_of_lt hmass)
    obtain ⟨id, a, hpick, ha⟩ := pick_positive h (Rat.mul_pos hzero hmass) (by grind)
    rw [hpick]
    exact ⟨a, ha⟩
  · obtain ⟨⟨id, w⟩, rest, a, rfl, ha⟩ := hfirst.resolve_left hzero
    have hr0 : r = 0 := by grind
    obtain ⟨q, rfl, hq, -⟩ := h _ List.mem_cons_self
    rw [hr0, Rat.zero_mul, pick_first hq]
    exact ⟨a, ha⟩

namespace Sampling

theorem topPEnd_pos (p cum : F32) {entries : List (Nat × F32)} (h : entries ≠ []) :
    0 < topPEnd p cum entries := by
  cases entries with
  | nil => exact absurd rfl h
  | cons e rest =>
    rw [topPEnd]
    split <;> omega

/-- The partial sort keeps an entry above zero: no weight left out is above a kept
one. -/
theorem selected_heavy (U : UnstableDesc) (mode : Sampling) (h : Weighs logits pairs)
    (hheavy : Heavy pairs) :
    Weighs logits (mode.selected U pairs) ∧ Heavy (mode.selected U pairs) := by
  unfold selected
  split
  · exact ⟨h, hheavy⟩
  · rename_i k _
    dsimp only
    split
    · rename_i hk
      have hperm := U.select_perm (min k pairs.length) pairs
      refine ⟨h.sublist fun p hp => hperm.mem_iff.mp (List.mem_of_mem_take hp), ?_⟩
      obtain ⟨p, hp, q, hq, hpos⟩ := hheavy
      have hmem := hperm.mem_iff.mpr hp
      rw [← List.take_append_drop (min k pairs.length) (U.select _ pairs)] at hmem
      rcases List.mem_append.mp hmem with hin | hout
      · exact ⟨p, hin, q, hq, hpos⟩
      · obtain ⟨a, ha⟩ : ∃ a, a ∈ (U.select (min k pairs.length) pairs).take (min k pairs.length) := by
          apply List.exists_mem_of_ne_nil
          apply List.ne_nil_of_length_pos
          rw [List.length_take, hperm.length_eq]
          omega
        have hle := U.select_spec (min k pairs.length) pairs h.not_nan a ha p hout
        obtain ⟨qa, hqa, -⟩ := h a (hperm.mem_iff.mp (List.mem_of_mem_take ha))
        rw [hqa, hq, F32.lt, decide_eq_false_iff_not] at hle
        exact ⟨a, ha, qa, hqa, by grind⟩
    · exact ⟨h, hheavy⟩

/-- What the filters keep starts with a weight above zero. -/
theorem filtered_first (U : UnstableDesc) (mode : Sampling) (h : Weighs logits pairs)
    (hheavy : Heavy pairs) :
    Weighs logits (mode.filtered U pairs) ∧
      ∃ id q rest, mode.filtered U pairs = (id, .fin q) :: rest ∧ 0 < q := by
  obtain ⟨hsel, p, hp, q, hq, hpos⟩ := selected_heavy U mode h hheavy
  have hperm := U.sort_perm (mode.selected U pairs)
  have hsorted := U.sort_spec _ hsel.not_nan
  have hweighs : Weighs logits (U.sort (mode.selected U pairs)) :=
    hsel.sublist fun p hp => hperm.mem_iff.mp hp
  have hmem := hperm.mem_iff.mpr hp
  unfold filtered
  dsimp only
  revert hsorted hweighs hmem
  cases U.sort (mode.selected U pairs) with
  | nil => exact fun _ _ hmem => by cases hmem
  | cons top rest =>
    intro hsorted hweighs hmem
    obtain ⟨qt, hqt, -⟩ := hweighs top List.mem_cons_self
    have htop : 0 < qt := by
      rcases List.mem_cons.mp hmem with rfl | hin
      · rw [hqt] at hq
        cases hq
        exact hpos
      · have hle := (List.pairwise_cons.mp hsorted).1 p hin
        rw [hqt, hq, F32.lt, decide_eq_false_iff_not] at hle
        grind
    have hk : 0 < mode.topKStop (top :: rest) := by
      unfold topKStop
      split
      · rename_i k hk
        have hkpos := mode.topKPos k hk
        simp only [List.length_cons]
        omega
      · simp
    have hp : 0 < mode.topPStop (top :: rest) (mode.topKStop (top :: rest)) := by
      unfold topPStop
      split
      · split
        · apply topPEnd_pos
          apply List.ne_nil_of_length_pos
          rw [List.length_take, List.length_cons]
          omega
        · exact hk
      · exact hk
    have hm : 0 < mode.minPStop (top :: rest)
        (mode.topPStop (top :: rest) (mode.topKStop (top :: rest))) := by
      unfold minPStop
      split
      · split
        · omega
        · exact hp
      · exact hp
    obtain ⟨n, hn⟩ := Nat.exists_eq_succ_of_ne_zero (Nat.ne_of_gt hm)
    refine ⟨hweighs.sublist fun p hp => List.mem_of_mem_take hp, top.1, qt, rest.take n, ?_, htop⟩
    rw [hn, Nat.succ_eq_add_one, List.take_succ_cons, ← hqt]

theorem scaled_cases (hc : 0 < c) {v : F32} (h : v.Logit) :
    (v = .negInf ∧ v.mul (.fin c) = .negInf) ∨ ∃ q : Rat, v = .fin q ∧ v.mul (.fin c) = .fin (q * c) := by
  cases v with
  | nan => exact h.elim
  | posInf => exact h.elim
  | negInf =>
    have hne : c ≠ 0 := by grind
    exact .inl ⟨rfl, by simp [F32.mul, F32.infTimes, hne, hc]⟩
  | fin q => exact .inr ⟨q, rfl, rfl⟩

/-- The largest scaled logit is one of them and none is above it. -/
theorem maxScaled_spec (hc : 0 < c) (h : ∀ v ∈ logits, F32.Logit v) (hsome : .fin q ∈ logits) :
    ∃ q₀ : Rat, .fin q₀ ∈ logits ∧ maxScaled (.fin c) logits = .fin (q₀ * c) := by
  have hfold : ∀ (vs : List F32) (m : F32), (∀ v ∈ vs, v ∈ logits) →
      (m = .negInf ∨ ∃ q : Rat, .fin q ∈ logits ∧ m = .fin (q * c)) →
      let last := vs.foldl (fun m v => if m.lt (v.mul (.fin c)) then v.mul (.fin c) else m) m
      (last = .negInf ∧ m = .negInf ∧ ∀ q : Rat, .fin q ∉ vs) ∨
        ∃ q : Rat, .fin q ∈ logits ∧ last = .fin (q * c) := by
    intro vs
    induction vs with
    | nil =>
      intro m _ hm
      exact hm.imp (fun hm => ⟨hm, hm, fun q hq => by cases hq⟩) id
    | cons v vs ih =>
      intro m hsub hm
      have hv := hsub v List.mem_cons_self
      have hvs : ∀ v ∈ vs, v ∈ logits := fun x hx => hsub x (List.mem_cons_of_mem _ hx)
      rw [List.foldl_cons]
      rcases scaled_cases hc (h v hv) with ⟨rfl, hmul⟩ | ⟨qv, rfl, hmul⟩
      · rw [hmul]
        have hkeep : (if m.lt .negInf then F32.negInf else m) = m := by
          cases m <;> simp [F32.lt]
        rw [hkeep]
        refine (ih m hvs hm).imp_left (And.imp_right (And.imp_right ?_))
        intro hnone q hq
        rcases List.mem_cons.mp hq with hq | hq
        · cases hq
        · exact hnone q hq
      · rw [hmul]
        have hnext : ∃ q : Rat, .fin q ∈ logits ∧
            (if m.lt (.fin (qv * c)) then F32.fin (qv * c) else m) = .fin (q * c) := by
          split
          · exact ⟨qv, hv, rfl⟩
          · rename_i hnot
            rcases hm with rfl | ⟨q, hq, rfl⟩
            · simp [F32.lt] at hnot
            · exact ⟨q, hq, rfl⟩
        obtain ⟨q, hq, hm'⟩ := hnext
        rw [hm']
        rcases ih _ hvs (.inr ⟨q, hq, rfl⟩) with ⟨-, hm, -⟩ | hfound
        · cases hm
        · exact .inr hfound
  rcases hfold logits .negInf (fun _ h => h) (.inl rfl) with ⟨-, -, hnone⟩ | hfound
  · exact absurd hsome (hnone q)
  · exact hfound

theorem weighs_map {f : F32 → F32} {logits : List F32}
    (hf : ∀ v ∈ logits, ∃ w : Rat, f v = .fin w ∧ 0 ≤ w ∧ (0 < w → ∃ a, v = .fin a)) :
    Weighs logits ((logits.map f).zipIdx.map fun p => (p.2, p.1)) := by
  intro p hp
  obtain ⟨⟨w, i⟩, hmem, rfl⟩ := List.mem_map.mp hp
  have hi := List.mem_zipIdx_iff_getElem?.mp hmem
  rw [List.getElem?_map] at hi
  obtain ⟨v, hv, hfv⟩ := Option.map_eq_some_iff.mp hi
  obtain ⟨q, hq, hnonneg, hfin⟩ := hf v (List.mem_of_getElem? hv)
  refine ⟨q, hfv.symm.trans hq, hnonneg, ?_⟩
  intro hpos
  obtain ⟨a, rfl⟩ := hfin hpos
  exact ⟨a, hv⟩

theorem heavy_map {f : F32 → F32} {logits : List F32} {w : Rat} (hv : v ∈ logits)
    (hf : f v = .fin w) (hw : 0 < w) : Heavy ((logits.map f).zipIdx.map fun p => (p.2, p.1)) := by
  obtain ⟨i, hi⟩ := List.getElem?_of_mem hv
  refine ⟨(i, f v), List.mem_map.mpr ⟨(f v, i), ?_, rfl⟩, w, hf, hw⟩
  rw [List.mem_zipIdx_iff_getElem?, List.getElem?_map, hi]
  rfl

/-- The weights of the scaled logits: zero for minus infinity, and one at the
largest. -/
theorem softmax_weighs (E : ExpF32) (hc : 0 < c) (h : ∀ v ∈ logits, F32.Logit v)
    (hsome : .fin q ∈ logits) :
    Weighs logits ((softmax E (.fin c) logits).zipIdx.map fun p => (p.2, p.1)) ∧
      Heavy ((softmax E (.fin c) logits).zipIdx.map fun p => (p.2, p.1)) := by
  obtain ⟨q₀, hq₀, hmax⟩ := maxScaled_spec hc h hsome
  let weight (v : F32) : F32 := E.exp ((v.mul (.fin c)).sub (.fin (q₀ * c)))
  have hweight : ∀ v ∈ logits, ∃ w : Rat, weight v = .fin w ∧ 0 ≤ w ∧
      (0 < w → ∃ a, v = .fin a) := by
    intro v hv
    rcases scaled_cases hc (h v hv) with ⟨rfl, hmul⟩ | ⟨a, rfl, hmul⟩
    · exact ⟨0, by simp [weight, hmul, F32.sub, F32.neg, F32.add, ExpF32.exp], Rat.le_refl,
        fun h => absurd h (Rat.lt_irrefl)⟩
    · exact ⟨E.fn (a * c + -(q₀ * c)), by rw [show weight _ = E.exp _ from rfl, hmul]; rfl,
        E.nonneg _, fun _ => ⟨a, rfl⟩⟩
  have hone : weight (.fin q₀) = .fin 1 := by
    have hzero : q₀ * c + -(q₀ * c) = 0 := by grind
    show E.exp (.fin (q₀ * c + -(q₀ * c))) = _
    rw [hzero, ExpF32.exp, E.zero]
  have hweighs := weighs_map hweight
  have hmass := heavy_mass hweighs (heavy_map hq₀ hone (by decide))
  have hsum : F32.sum (logits.map weight) =
      .fin (mass ((logits.map weight).zipIdx.map fun p => (p.2, p.1))) := by
    rw [← weighs_sum hweighs, List.map_map]
    congr 1
    exact (List.zipIdx_map_fst 0 _).symm
  generalize mass ((logits.map weight).zipIdx.map fun p => (p.2, p.1)) = total at hmass hsum
  have htotal : total ≠ 0 := by grind
  have hsoftmax : softmax E (.fin c) logits = logits.map fun v => (weight v).div (.fin total) := by
    unfold softmax
    rw [hmax]
    show (if F32.lt (.fin 0) (F32.sum (logits.map weight)) then _ else _) = _
    rw [hsum, if_pos (by simp [F32.lt, hmass]), List.map_map]
    rfl
  have hdiv : ∀ w : Rat, F32.div (.fin w) (.fin total) = .fin (w / total) := by
    intro w
    simp [F32.div, htotal]
  rw [hsoftmax]
  refine ⟨weighs_map ?_, heavy_map hq₀ (w := 1 / total) (by simp only [hone, hdiv]) ?_⟩
  · intro v hv
    obtain ⟨w, hw, hnonneg, hfin⟩ := hweight v hv
    refine ⟨w / total, by rw [hw, hdiv], ?_, ?_⟩
    · apply Rat.not_lt.mp
      rw [Rat.div_lt_iff hmass, Rat.zero_mul]
      exact Rat.not_lt.mpr hnonneg
    · intro hpos
      rw [Rat.lt_div_iff hmass, Rat.zero_mul] at hpos
      exact hfin hpos
  · rw [Rat.lt_div_iff hmass, Rat.zero_mul]
    decide

/-- The draw behind a stochastic pick is not zero, or the first entry is not at
minus infinity, or a filter sorts the entries. -/
def DrawOk (mode : Sampling) (logits : List F32) (r : Rat) : Prop :=
  mode.anyFilter = true ∨ 0 < r ∨ logits[0]? ≠ some .negInf

theorem sampleStochastic_above (U : UnstableDesc) (E : ExpF32) {mode : Sampling} {t : Rat}
    (htemp : mode.temperature = .fin t) (hpos : 0 < t) (h : ∀ v ∈ logits, F32.Logit v)
    (hsome : .fin q ∈ logits) (hr : 0 ≤ r) (hr' : r < 1) (hdraw : mode.DrawOk logits r) :
    ∃ a, logits[mode.sampleStochastic U E logits r]? = some (.fin a) := by
  have hinv : F32.div (.fin 1) (.fin t) = .fin (1 / t) := by
    have hne : t ≠ 0 := by grind
    simp [F32.div, hne]
  have hle : F32.le (.fin t) (.fin 0) = false := by simp [F32.le, F32.lt, hpos]
  have hscale : 0 < 1 / t := by
    rw [Rat.lt_div_iff hpos, Rat.zero_mul]
    decide
  obtain ⟨hweighs, hheavy⟩ := softmax_weighs E hscale h hsome
  unfold sampleStochastic
  rw [htemp, hle]
  simp only [Bool.false_eq_true, if_false, hinv]
  by_cases hfilter : mode.anyFilter = true
  · rw [if_pos hfilter]
    obtain ⟨hw, id, w, rest, hfirst, hwpos⟩ := filtered_first U mode hweighs hheavy
    have hid : (id, F32.fin w) ∈ mode.filtered U
        ((softmax E (.fin (1 / t)) logits).zipIdx.map fun p => (p.2, p.1)) := by
      rw [hfirst]
      exact List.mem_cons_self
    obtain ⟨w', hw', -, habove⟩ := hw _ hid
    cases hw'
    obtain ⟨a, ha⟩ := habove hwpos
    exact pick_kept hw ⟨_, hid, w, rfl, hwpos⟩ hr hr' (.inr ⟨_, rest, a, hfirst, ha⟩)
  · rw [if_neg hfilter]
    refine pick_kept hweighs hheavy hr hr' ((hdraw.resolve_left hfilter).imp_right ?_)
    intro hzero
    cases logits with
    | nil => cases hsome
    | cons v vs =>
      have hv := h v List.mem_cons_self
      obtain ⟨a, rfl⟩ : ∃ a, v = .fin a := by
        cases v with
        | nan => exact hv.elim
        | posInf => exact hv.elim
        | negInf => exact absurd rfl hzero
        | fin a => exact ⟨a, rfl⟩
      have hlen : (softmax E (.fin (1 / t)) (.fin a :: vs)).length = (F32.fin a :: vs).length := by
        unfold softmax
        dsimp only
        split <;> simp
      cases hsoft : softmax E (.fin (1 / t)) (.fin a :: vs) with
      | nil =>
        rw [hsoft] at hlen
        cases hlen
      | cons w ws => exact ⟨(0, w), _, a, rfl, rfl⟩

/-- The scan of `argmax` keeps one of the largest entries it has seen. -/
theorem argmax_scan (ps : List (F32 × Nat)) (best : Nat × F32) (hbest : best.2 ≠ .nan)
    (hps : ∀ p ∈ ps, p.1 ≠ .nan) :
    let last := ps.foldl (fun best p => if best.2.lt p.1 then (p.2, p.1) else best) best
    (last = best ∨ (last.2, last.1) ∈ ps) ∧ last.2 ≠ .nan ∧ last.2.lt best.2 = false ∧
      ∀ p ∈ ps, last.2.lt p.1 = false := by
  induction ps generalizing best with
  | nil =>
    refine ⟨.inl rfl, hbest, ?_, fun p hp => by cases hp⟩
    obtain ⟨i, v⟩ := best
    cases v <;> simp [F32.lt]
  | cons p ps ih =>
    have hp := hps p List.mem_cons_self
    have htail : ∀ p ∈ ps, p.1 ≠ .nan := fun p hp => hps p (List.mem_cons_of_mem _ hp)
    rw [List.foldl_cons]
    dsimp only
    split
    · rename_i hlt
      obtain ⟨hfrom, hnan, hle, hall⟩ := ih (p.2, p.1) hp htail
      refine ⟨.inr ?_, hnan, F32.lt_false_trans hnan hp hle (F32.lt_asymm hlt), ?_⟩
      · rcases hfrom with heq | hmem
        · rw [heq]
          exact List.mem_cons_self
        · exact List.mem_cons_of_mem _ hmem
      · intro p' hp'
        rcases List.mem_cons.mp hp' with rfl | hp'
        · exact hle
        · exact hall p' hp'
    · rename_i hnot
      obtain ⟨hfrom, hnan, hle, hall⟩ := ih best hbest htail
      refine ⟨hfrom.imp_right (List.mem_cons_of_mem _), hnan, hle, ?_⟩
      intro p' hp'
      rcases List.mem_cons.mp hp' with rfl | hp'
      · exact F32.lt_false_trans hnan hbest hle (by simpa using hnot)
      · exact hall p' hp'

/-- The `argmax` is one of the largest numbers. -/
theorem argmax_above (h : ∀ v ∈ logits, F32.Logit v) (hsome : .fin q ∈ logits) :
    ∃ a, logits[argmax logits]? = some (.fin a) ∧ ∀ b, .fin b ∈ logits → b ≤ a := by
  have hget : ∀ p ∈ logits.zipIdx, logits[p.2]? = some p.1 := fun p hp =>
    List.mem_zipIdx_iff_getElem?.mp hp
  have hnumber : ∀ p ∈ logits.zipIdx, p.1 ≠ .nan := by
    intro p hp hnan
    have hv := h p.1 (List.mem_of_getElem? (hget p hp))
    rw [hnan] at hv
    exact hv
  obtain ⟨hfrom, -, -, hall⟩ := argmax_scan logits.zipIdx (0, .negInf) (by simp) hnumber
  unfold argmax
  generalize logits.zipIdx.foldl _ (0, F32.negInf) = last at hfrom hall ⊢
  have hle : ∀ b, .fin b ∈ logits → last.2.lt (.fin b) = false := by
    intro b hb
    obtain ⟨i, hi⟩ := List.getElem?_of_mem hb
    exact hall (.fin b, i) (List.mem_zipIdx_iff_getElem?.mpr hi)
  rcases hfrom with rfl | hmem
  · cases hle q hsome
  · have hlast := hget _ hmem
    have hv := h _ (List.mem_of_getElem? hlast)
    obtain ⟨i, v⟩ := last
    cases v with
    | nan => exact hv.elim
    | posInf => exact hv.elim
    | negInf => cases hle q hsome
    | fin a =>
      refine ⟨a, hlast, ?_⟩
      intro b hb
      have := hle b hb
      simp only [F32.lt, decide_eq_false_iff_not] at this
      exact Rat.not_lt.mp this

end Sampling

theorem Rng.nextF32_range (rng : Rng) : 0 ≤ rng.nextF32.1 ∧ rng.nextF32.1 < 1 := by
  unfold nextF32
  dsimp only
  have hlt : (rng.nextU64.1 >>> 40).toNat < 2 ^ 24 := by
    rw [UInt64.toNat_shiftRight]
    have := rng.nextU64.1.toNat_lt
    have hshift : (40 : UInt64).toNat % 64 = 40 := rfl
    rw [hshift, Nat.shiftRight_eq_div_pow]
    omega
  have hpow : (0 : Rat) < 2 ^ 24 := by decide
  constructor
  · apply Rat.not_lt.mp
    rw [Rat.div_lt_iff hpow, Rat.zero_mul]
    exact Rat.not_lt.mpr Rat.natCast_nonneg
  · rw [Rat.div_lt_iff hpow, Rat.one_mul]
    exact_mod_cast hlt

/-- What the sampler needs to keep away from the masked tokens: numbers and minus
infinities to draw from, not all of them minus infinity, and a draw that does not
fall on a masked first entry. -/
structure Drawable (mode : Sampling) (view : List F32) (r : Rat) : Prop where
  logits : ∀ v ∈ view, F32.Logit v
  some : ∃ q, .fin q ∈ view
  temperature : mode.isGreedy = true ∨ ∃ t, mode.temperature = .fin t ∧ 0 < t ∧ mode.DrawOk view r

/-- The sampled token's logit is above minus infinity. -/
theorem Rng.sample_above (U : UnstableDesc) (E : ExpF32) (rng : Rng) {mode : Sampling}
    {logits : List F32} {history : List Nat}
    (h : Drawable mode (mode.view logits history) rng.nextF32.1) :
    ∃ a, (mode.view logits history)[(rng.sample U E logits mode history).1]? = some (.fin a) := by
  obtain ⟨q, hq⟩ := h.some
  unfold sample
  dsimp only
  split
  · obtain ⟨a, ha, -⟩ := Sampling.argmax_above h.logits hq
    exact ⟨a, ha⟩
  · rename_i hgreedy
    obtain ⟨t, htemp, hpos, hdraw⟩ := h.temperature.resolve_left hgreedy
    obtain ⟨hr, hr'⟩ := rng.nextF32_range
    exact Sampling.sampleStochastic_above U E htemp hpos h.logits hq hr hr' hdraw

/-- A logit that was masked and stays so, or is not a number any more. -/
def F32.Masked (v : F32) : Prop := v = .negInf ∨ v = .nan

namespace F32

theorem Masked.sub (h : Masked v) (b : F32) : Masked (v.sub b) := by
  rcases h with rfl | rfl <;> cases b <;> simp [Masked, F32.sub, neg, add]

theorem Masked.add (h : Masked v) (b : F32) : Masked (v.add b) := by
  rcases h with rfl | rfl <;> cases b <;> simp [Masked, F32.add]

theorem Masked.mul (h : Masked v) (hb : lt (.fin 0) b = true) : Masked (v.mul b) := by
  rcases h with rfl | rfl
  · cases b with
    | nan => cases hb
    | negInf => cases hb
    | posInf => exact .inl rfl
    | fin q =>
      have hpos : 0 < q := by simpa [lt] using hb
      have hne : q ≠ 0 := by grind
      exact .inl (by simp [F32.mul, infTimes, hpos, hne])
  · exact .inr (by cases b <;> rfl)

end F32

namespace Sampling

theorem penalize_masked (mode : Sampling) (count : Nat) (h : F32.Masked v) :
    F32.Masked (mode.penalize v count) := by
  have hpos : F32.lt (.fin 0) v = false := by rcases h with rfl | rfl <;> rfl
  unfold penalize
  simp only [hpos, Bool.false_eq_true, if_false]
  have hrep : F32.Masked (if (mode.repetitionPenalty != .fin 1 &&
      F32.lt (.fin 0) mode.repetitionPenalty) = true then v.mul mode.repetitionPenalty else v) := by
    split
    · rename_i hp
      exact h.mul (Bool.and_eq_true_iff.mp hp).2
    · exact h
  split <;> split
  · exact (hrep.sub _).sub _
  · exact hrep.sub _
  · exact hrep.sub _
  · exact hrep

theorem modify_masked {i : Nat} {f : F32 → F32} (hf : ∀ v, F32.Masked v → F32.Masked (f v)) (j : Nat)
    {logits : List F32} (h : ∃ v, logits[i]? = some v ∧ F32.Masked v) :
    ∃ v, (logits.modify j f)[i]? = some v ∧ F32.Masked v := by
  obtain ⟨v, hv, hm⟩ := h
  rw [List.getElem?_modify, hv]
  by_cases hij : j = i
  · exact ⟨f v, by simp [hij], hf v hm⟩
  · exact ⟨v, by simp [hij], hm⟩

/-- Penalties and bias leave a masked logit masked. -/
theorem view_masked (mode : Sampling) (history : List Nat) {i : Nat} {logits : List F32}
    (h : ∃ v, logits[i]? = some v ∧ F32.Masked v) :
    ∃ v, (mode.view logits history)[i]? = some v ∧ F32.Masked v := by
  have hpenalties : ∃ v, (mode.applyPenalties logits history)[i]? = some v ∧ F32.Masked v := by
    unfold applyPenalties
    generalize buildHistoryCounts history = counts
    induction counts generalizing logits with
    | nil => exact h
    | cons p counts ih =>
      rw [List.foldl_cons]
      exact ih (modify_masked (fun v hv => mode.penalize_masked p.2 hv) p.1 h)
  have hbias : ∀ ls : List F32, (∃ v, ls[i]? = some v ∧ F32.Masked v) →
      ∃ v, (mode.applyLogitBias ls)[i]? = some v ∧ F32.Masked v := by
    intro ls hls
    unfold applyLogitBias
    split
    · exact hls
    · rename_i bias hsome
      clear h hpenalties hsome
      induction bias generalizing ls with
      | nil => exact hls
      | cons p bias ih =>
        rw [List.foldl_cons]
        exact ih _ (modify_masked (fun v hv => hv.add p.2) p.1 hls)
  unfold view
  dsimp only
  split
  · exact hbias _ hpenalties
  · exact hbias _ h

theorem view_length (mode : Sampling) (logits : List F32) (history : List Nat) :
    (mode.view logits history).length = logits.length := by
  have hfold : ∀ {β : Type} (ps : List β) (f : β → Nat) (g : β → F32 → F32) (ls : List F32),
      (ps.foldl (fun ls p => ls.modify (f p) (g p)) ls).length = ls.length := by
    intro β ps f g
    induction ps with
    | nil => exact fun _ => rfl
    | cons p ps ih =>
      intro ls
      rw [List.foldl_cons, ih, List.length_modify]
  have hbias : ∀ ls, (mode.applyLogitBias ls).length = ls.length := by
    intro ls
    unfold applyLogitBias
    split
    · rfl
    · exact hfold _ _ _ _
  unfold view
  dsimp only
  rw [hbias]
  split
  · exact hfold _ _ _ _
  · rfl

/-- A sampled token was not masked. -/
theorem sample_unmasked (U : UnstableDesc) (E : ExpF32) (rng : Rng) {mode : Sampling}
    {logits : List F32} {history : List Nat}
    (h : Drawable mode (mode.view logits history) rng.nextF32.1) :
    ∃ v, logits[(rng.sample U E logits mode history).1]? = some v ∧ v ≠ .negInf := by
  obtain ⟨a, ha⟩ := rng.sample_above U E h
  have hlt := (List.getElem?_eq_some_iff.mp ha).1
  rw [view_length] at hlt
  refine ⟨_, List.getElem?_eq_getElem hlt, ?_⟩
  intro hmasked
  obtain ⟨v, hv, hm⟩ := mode.view_masked history ⟨_, List.getElem?_eq_getElem hlt, .inl hmasked⟩
  rw [ha] at hv
  cases hv
  rcases hm with hm | hm <;> cases hm

end Sampling
end Flambeau.Runtime
