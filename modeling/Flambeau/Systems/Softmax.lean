import Mathlib

namespace Flambeau.Systems.Softmax

variable {R : Type} [Field R] [LinearOrder R]

structure Exponential (exp : R → R) : Prop where
  add : ∀ x y, exp (x + y) = exp x * exp y
  pos : ∀ x, 0 < exp x

/-- The values, averaged by the exponentials of their scores. -/
def average (exp : R → R) (rows : List (R × R)) : R :=
  (rows.map fun r => exp r.1 * r.2).sum / (rows.map fun r => exp r.1).sum

/-- The greatest score so far, where there is one, and the two sums below it. -/
structure Partial (R : Type) where
  top : Option R
  sum : R
  out : R

def Partial.empty : Partial R := ⟨none, 0, 0⟩

/-- The exponential of a difference; of no score it is 0. -/
def weight (exp : R → R) (m : Option R) (above : R) : R :=
  match m with
  | none => 0
  | some m => exp (m - above)

def upTo (m : Option R) (score : R) : R :=
  match m with
  | none => score
  | some m => max m score

/-- One more row. -/
def Partial.push (exp : R → R) (p : Partial R) (r : R × R) : Partial R :=
  let newMax := upTo p.top r.1
  let scaleOld := weight exp p.top newMax
  let coeff := exp (r.1 - newMax)
  ⟨some newMax, p.sum * scaleOld + coeff, p.out * scaleOld + coeff * r.2⟩

/-- Four more rows at once. -/
def Partial.push4 (exp : R → R) (p : Partial R) (r₀ r₁ r₂ r₃ : R × R) : Partial R :=
  let newMax := upTo p.top (max (max r₀.1 r₁.1) (max r₂.1 r₃.1))
  let scaleOld := weight exp p.top newMax
  let c₀ := exp (r₀.1 - newMax)
  let c₁ := exp (r₁.1 - newMax)
  let c₂ := exp (r₂.1 - newMax)
  let c₃ := exp (r₃.1 - newMax)
  ⟨some newMax, p.sum * scaleOld + c₀ + c₁ + c₂ + c₃,
    p.out * scaleOld + c₀ * r₀.2 + c₁ * r₁.2 + c₂ * r₂.2 + c₃ * r₃.2⟩

def greatest (m : Option R) (p : Partial R) : Option R :=
  match p.top with
  | none => m
  | some score => some (upTo m score)

/-- The average that a list of partial sums stands for; of no rows there is none. -/
def combine (exp : R → R) (ps : List (Partial R)) : Option R :=
  (ps.foldl greatest none).map fun above =>
    let sum := ps.foldl (fun acc p => acc + p.sum * weight exp p.top above) 0
    let out := ps.foldl (fun acc p => acc + p.out * weight exp p.top above) 0
    let norm := if 0 < sum then 1 / sum else 0
    out * norm

/-- The sums of the rows, by scores below `above`. -/
def sumBelow (exp : R → R) (above : R) (rows : List (R × R)) : R := (rows.map fun r => exp (r.1 - above)).sum

def outBelow (exp : R → R) (above : R) (rows : List (R × R)) : R :=
  (rows.map fun r => exp (r.1 - above) * r.2).sum

/-- The partial sums are those of the rows. -/
structure Holds (exp : R → R) (rows : List (R × R)) (p : Partial R) : Prop where
  none_iff : p.top = none ↔ rows = []
  sum : ∀ above, p.sum * weight exp p.top above = sumBelow exp above rows
  out : ∀ above, p.out * weight exp p.top above = outBelow exp above rows

variable {exp : R → R}

omit [LinearOrder R] in
theorem sumBelow_append (above : R) (rows rows' : List (R × R)) :
    sumBelow exp above (rows ++ rows') = sumBelow exp above rows + sumBelow exp above rows' := by
  unfold sumBelow
  rw [List.map_append, List.sum_append]

omit [LinearOrder R] in
theorem outBelow_append (above : R) (rows rows' : List (R × R)) :
    outBelow exp above (rows ++ rows') = outBelow exp above rows + outBelow exp above rows' := by
  unfold outBelow
  rw [List.map_append, List.sum_append]

theorem Exponential.chain (hexp : Exponential exp) (x y z : R) : exp (x - y) * exp (y - z) = exp (x - z) := by
  rw [← hexp.add, sub_add_sub_cancel]

theorem Exponential.zero (hexp : Exponential exp) : exp 0 = 1 := by
  have h : exp 0 * exp 0 = exp 0 * 1 := by
    rw [← hexp.add, add_zero, mul_one]
  exact mul_left_cancel₀ (hexp.pos 0).ne' h

theorem sumBelow_shift (hexp : Exponential exp) (m above : R) (rows : List (R × R)) :
    sumBelow exp m rows * exp (m - above) = sumBelow exp above rows := by
  unfold sumBelow
  rw [← List.sum_map_mul_right]
  simp only [hexp.chain]

theorem outBelow_shift (hexp : Exponential exp) (m above : R) (rows : List (R × R)) :
    outBelow exp m rows * exp (m - above) = outBelow exp above rows := by
  unfold outBelow
  rw [← List.sum_map_mul_right]
  simp only [mul_right_comm _ _ (exp (m - above)), hexp.chain]

omit [LinearOrder R] in
theorem holds_empty : Holds exp [] (Partial.empty : Partial R) where
  none_iff := Iff.rfl.trans (by simp [Partial.empty])
  sum _ := by simp [Partial.empty, sumBelow]
  out _ := by simp [Partial.empty, outBelow]

/-- Sums below one score are sums below any. -/
theorem holds_of_sums (hexp : Exponential exp) {rows : List (R × R)} (hne : rows ≠ []) (m : R) :
    Holds exp rows ⟨some m, sumBelow exp m rows, outBelow exp m rows⟩ where
  none_iff := iff_of_false nofun hne
  sum above := sumBelow_shift hexp m above rows
  out above := outBelow_shift hexp m above rows

theorem Holds.push (hexp : Exponential exp) (h : Holds exp rows p) (r : R × R) :
    Holds exp (rows ++ [r]) (p.push exp r) := by
  have hne : rows ++ [r] ≠ [] := by simp
  have hsum := h.sum (upTo p.top r.1)
  have hout := h.out (upTo p.top r.1)
  have heq : p.push exp r = ⟨some (upTo p.top r.1), sumBelow exp (upTo p.top r.1) (rows ++ [r]),
      outBelow exp (upTo p.top r.1) (rows ++ [r])⟩ := by
    unfold Partial.push
    dsimp only
    rw [hsum, hout, sumBelow_append, outBelow_append]
    simp [sumBelow, outBelow]
  rw [heq]
  exact holds_of_sums hexp hne _

theorem Holds.push4 (hexp : Exponential exp) (h : Holds exp rows p) (r₀ r₁ r₂ r₃ : R × R) :
    Holds exp (rows ++ [r₀, r₁, r₂, r₃]) (p.push4 exp r₀ r₁ r₂ r₃) := by
  have hne : rows ++ [r₀, r₁, r₂, r₃] ≠ [] := by simp
  generalize hmax : upTo p.top (max (max r₀.1 r₁.1) (max r₂.1 r₃.1)) = m
  have heq : p.push4 exp r₀ r₁ r₂ r₃ = ⟨some m, sumBelow exp m (rows ++ [r₀, r₁, r₂, r₃]),
      outBelow exp m (rows ++ [r₀, r₁, r₂, r₃])⟩ := by
    unfold Partial.push4
    dsimp only
    rw [hmax, h.sum m, h.out m, sumBelow_append, outBelow_append]
    simp [sumBelow, outBelow, add_assoc]
  rw [heq]
  exact holds_of_sums hexp hne _

omit [LinearOrder R] in
theorem foldl_weighted (hholds : List.Forall₂ (Holds exp) rowss ps) (above acc : R) :
    ps.foldl (fun acc p => acc + p.sum * weight exp p.top above) acc = acc + sumBelow exp above rowss.flatten ∧
      ps.foldl (fun acc p => acc + p.out * weight exp p.top above) acc = acc + outBelow exp above rowss.flatten := by
  induction hholds generalizing acc with
  | nil => simp [sumBelow, outBelow]
  | cons h _ ih =>
    rw [List.foldl_cons, List.foldl_cons, List.flatten_cons, sumBelow_append, outBelow_append, h.sum, h.out,
      (ih _).1, (ih _).2, add_assoc, add_assoc]
    exact ⟨rfl, rfl⟩

theorem greatest_none (hholds : List.Forall₂ (Holds exp) rowss ps) (m : Option R) :
    ps.foldl greatest m = none ↔ m = none ∧ rowss.flatten = [] := by
  induction hholds generalizing m with
  | nil => simp
  | @cons rows p rowss ps h _ ih =>
    rw [List.foldl_cons, ih, List.flatten_cons, List.append_eq_nil_iff, ← h.none_iff]
    unfold greatest
    cases p.top with
    | none => simp
    | some score => simp

theorem average_below (hexp : Exponential exp) (above : R) (rows : List (R × R)) :
    outBelow exp above rows / sumBelow exp above rows = average exp rows := by
  have hzero : ∀ x, exp (x - 0) = exp x := fun x => by rw [sub_zero]
  have hsum : sumBelow exp above rows = sumBelow exp 0 rows * exp (0 - above) := (sumBelow_shift hexp 0 above rows).symm
  have hout : outBelow exp above rows = outBelow exp 0 rows * exp (0 - above) := (outBelow_shift hexp 0 above rows).symm
  rw [hsum, hout, mul_div_mul_right _ _ (hexp.pos _).ne']
  unfold average sumBelow outBelow
  simp only [hzero]

variable [IsStrictOrderedRing R]

theorem sumBelow_pos (hexp : Exponential exp) {rows : List (R × R)} (hne : rows ≠ []) (above : R) :
    0 < sumBelow exp above rows := by
  refine List.sum_pos _ (fun x hx => ?_) (by simpa using hne)
  obtain ⟨r, -, rfl⟩ := List.mem_map.mp hx
  exact hexp.pos _

/-- The sums of one partial are divided. -/
theorem Holds.average (hexp : Exponential exp) (h : Holds exp rows p) (hne : rows ≠ []) :
    0 < p.sum ∧ p.out * (1 / p.sum) = average exp rows := by
  cases hmax : p.top with
  | none => exact absurd (h.none_iff.mp hmax) hne
  | some m =>
    have hsum := h.sum m
    have hout := h.out m
    rw [hmax, weight, sub_self, hexp.zero, mul_one] at hsum hout
    rw [hsum, hout, mul_one_div]
    exact ⟨sumBelow_pos hexp hne m, average_below hexp m rows⟩

/-- Partial sums of any split of the rows stand for the average of all of them. -/
theorem combine_eq (hexp : Exponential exp) (hholds : List.Forall₂ (Holds exp) rowss ps) (hne : rowss.flatten ≠ []) :
    combine exp ps = some (average exp rowss.flatten) := by
  unfold combine
  cases habove : ps.foldl greatest none with
  | none => exact absurd ((greatest_none hholds none).mp habove).2 hne
  | some above =>
    have hsum := (foldl_weighted hholds above 0).1
    have hout := (foldl_weighted hholds above 0).2
    rw [zero_add] at hsum hout
    rw [Option.map_some, hsum, hout]
    dsimp only
    rw [if_pos (sumBelow_pos hexp hne above), mul_one_div, average_below hexp]

end Flambeau.Systems.Softmax
